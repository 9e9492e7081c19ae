import Mathlib.Data.List.Induction
import ComponentIdentity.Files.Report
import ComponentIdentity.Proofs.Paths

/-! # Places and their paths

Without links the segments of a path alone say which place it leads to, if it leads
anywhere: whether something is looked up there or written, and whether the path is
taken as a whole or cut into a directory and a name. A place also has a path of its
own, from the root through its names. Where reports are read and written, that path is
taken in place of the one given; it leads to no other place.
-/

namespace ComponentIdentity

namespace Path

variable {path : Path} {name : String}

theorem splitSlash_eq (cs : List Char) : splitSlash cs = cs.splitOn '/' := by
  induction cs with
  | nil => rfl
  | cons c cs ih =>
    rw [List.splitOn_cons_eq_if_modifyHead, ← ih]
    cases he : splitSlash cs with
    | nil => exact absurd (ih.symm.trans he) (List.splitOn_ne_nil _ _)
    | cons part rest =>
      rw [splitSlash, List.foldr_cons, ← splitSlash, he]
      by_cases hc : c = '/'
      · rw [if_pos hc, if_pos (beq_iff_eq.mpr hc)]
      · rw [if_neg hc, if_neg (mt beq_iff_eq.mp hc), List.modifyHead_cons]

theorem slash_not_mem_of_mem_splitSlash {cs part : List Char} (h : part ∈ splitSlash cs) :
    '/' ∉ part := by
  induction cs generalizing part with
  | nil =>
    rw [List.mem_singleton.mp h]
    exact List.not_mem_nil
  | cons c cs ih =>
    rw [splitSlash_eq, List.splitOn_cons_eq_if_modifyHead, ← splitSlash_eq] at h
    split at h
    · rcases List.mem_cons.mp h with rfl | h
      · exact List.not_mem_nil
      · exact ih h
    next hc =>
      cases he : splitSlash cs with
      | nil => rw [he] at h; cases h
      | cons first rest =>
        rw [he, List.modifyHead_cons] at h
        rcases List.mem_cons.mp h with rfl | h
        · have hne : '/' ≠ c := fun e => hc (beq_iff_eq.mpr e.symm)
          simpa [hne] using ih (he ▸ List.mem_cons_self)
        · exact ih (he ▸ List.mem_cons_of_mem _ h)

theorem splitSlash_cons_slash {cs : List Char} : splitSlash ('/' :: cs) = [] :: splitSlash cs :=
  rfl

theorem splitSlash_dot_slash {cs : List Char} :
    splitSlash ('.' :: '/' :: cs) = ['.'] :: splitSlash cs := rfl

theorem front_cases {cs front body : List Char} (h : Path.front cs = (front, body)) :
    (front = ['/'] ∧ cs = '/' :: body) ∨
      (front = ['.'] ∧ cs = '.' :: body ∧ (body = [] ∨ ∃ rest, body = '/' :: rest)) ∨
      (front = [] ∧ cs = body ∧ body.head? ≠ some '/') := by
  unfold Path.front at h
  split at h
  · cases h
    exact .inl ⟨rfl, rfl⟩
  · cases h
    exact .inr (.inl ⟨rfl, rfl, .inl rfl⟩)
  next rest =>
    cases h
    exact .inr (.inl ⟨rfl, rfl, .inr ⟨rest, rfl⟩⟩)
  next cs hslash _ _ =>
    cases h
    refine .inr (.inr ⟨rfl, rfl, fun hhead => ?_⟩)
    obtain ⟨rest, he⟩ := List.head?_eq_some_iff.mp hhead
    exact hslash rest he

theorem joinSlash_append {parts more : List (List Char)} (hp : parts ≠ []) (hm : more ≠ []) :
    joinSlash (parts ++ more) = joinSlash parts ++ '/' :: joinSlash more := by
  obtain ⟨q, more, rfl⟩ := List.exists_cons_of_ne_nil hm
  induction parts with
  | nil => exact absurd rfl hp
  | cons p parts ih =>
    cases parts with
    | nil => simp [joinSlash]
    | cons p' parts =>
      have hrest := ih (List.cons_ne_nil p' parts)
      rw [joinSlash, joinSlash, List.cons_append] at hrest
      rw [joinSlash, joinSlash, List.cons_append, List.cons_append, List.intercalate_cons_cons,
        hrest, List.intercalate_cons_cons, List.append_assoc, List.append_assoc,
        List.append_assoc]

theorem exists_joinSlash_append {body : List Char} {parts : List (List Char)}
    (h : parts <+: splitSlash body) :
    ∃ rest, body = joinSlash parts ++ rest ∧
      (joinSlash parts = [] ∨ rest = [] ∨ ∃ tail, rest = '/' :: tail) := by
  obtain ⟨more, he⟩ := h
  have hbody : joinSlash (parts ++ more) = body := by
    rw [he, splitSlash_eq, joinSlash, List.intercalate_splitOn]
  by_cases hp : parts = []
  · exact ⟨body, by rw [hp]; rfl, .inl (by rw [hp]; rfl)⟩
  by_cases hm : more = []
  · rw [hm, List.append_nil] at hbody
    exact ⟨[], by rw [List.append_nil, hbody], .inr (.inl rfl)⟩
  · rw [joinSlash_append hp hm] at hbody
    exact ⟨_, hbody.symm, .inr (.inr ⟨_, rfl⟩)⟩

theorem front_joinSlash {cs front body : List Char} {parts : List (List Char)}
    (h : Path.front cs = (front, body)) (hp : parts <+: splitSlash body) :
    Path.front (front ++ joinSlash parts) = (front, joinSlash parts) := by
  obtain ⟨rest, rfl, hrest⟩ := exists_joinSlash_append hp
  generalize joinSlash parts = dir at h hrest
  rcases front_cases h with ⟨rfl, -⟩ | ⟨rfl, -, hdot⟩ | ⟨rfl, rfl, -⟩
  · rfl
  · cases dir with
    | nil => rfl
    | cons c dir =>
      obtain ⟨tail, he⟩ := hdot.resolve_left (List.cons_ne_nil c _)
      cases he
      rfl
  · rw [List.nil_append]
    unfold Path.front
    split
    · cases h
    · rcases hrest with he | rfl | ⟨tail, rfl⟩
      · cases he
      · cases h
      · cases h
    · cases h
    · rfl

theorem dropVoid_concat {parts : List (List Char)} {part : List Char} :
    dropVoid (parts ++ [part]) = if isVoid part then dropVoid parts else parts ++ [part] := by
  rw [dropVoid, List.reverse_concat, List.dropWhile_cons]
  split
  · rfl
  · rw [List.reverse_cons, List.reverse_reverse]

theorem dropVoid_prefix (parts : List (List Char)) : dropVoid parts <+: parts := by
  rw [dropVoid, ← List.reverse_suffix, List.reverse_reverse]
  exact List.dropWhile_suffix _

theorem slash_not_mem_of_mem_segments (h : name ∈ path.segments) : '/' ∉ name.toList := by
  obtain ⟨part, hm, rfl⟩ := List.mem_map.mp h
  rw [String.toList_ofList]
  exact slash_not_mem_of_mem_splitSlash hm

end Path

namespace Location

variable {l : Location} {parts : List (List Char)} {part : List Char}

/-- One segment further, if it names anything; two dots lead to the place around. -/
def step (l : Location) (name : String) : Location :=
  if name = "" ∨ name = "." then l else if name = ".." then l.dropLast else l ++ [name]

/-- The place that segments lead to. -/
def walk (l : Location) (parts : List (List Char)) : Location :=
  parts.foldl (fun l part => l.step (String.ofList part)) l

theorem step_of_isVoid (h : Path.isVoid part = true) : l.step (String.ofList part) = l := by
  simp only [Path.isVoid, Bool.or_eq_true, beq_iff_eq] at h
  apply if_pos
  rcases h with rfl | rfl
  · exact .inl rfl
  · exact .inr rfl

theorem walk_cons_of_isVoid (h : Path.isVoid part = true) :
    l.walk (part :: parts) = l.walk parts := by
  rw [walk, List.foldl_cons, step_of_isVoid h, walk]

theorem walk_concat : l.walk (parts ++ [part]) = (l.walk parts).step (String.ofList part) := by
  rw [walk, List.foldl_append, List.foldl_cons, List.foldl_nil, walk]

theorem walk_dropVoid : l.walk (Path.dropVoid parts) = l.walk parts := by
  induction parts using List.reverseRecOn with
  | nil => rfl
  | append_singleton parts part ih =>
    rw [Path.dropVoid_concat]
    split
    next hv => rw [ih, walk_concat, step_of_isVoid hv]
    · rfl

/-- Segments that are joined are found again, and no segments lead nowhere. -/
theorem walk_splitSlash_joinSlash (h : ∀ part ∈ parts, '/' ∉ part) :
    l.walk (Path.splitSlash (Path.joinSlash parts)) = l.walk parts := by
  cases parts with
  | nil => exact walk_cons_of_isVoid rfl
  | cons part parts =>
    rw [Path.splitSlash_eq, Path.joinSlash,
      List.splitOn_intercalate _ h (List.cons_ne_nil _ _)]

end Location

/-- The name means one step down, in one segment of a path, as the name of every file does. -/
def IsPlainName (name : String) : Prop :=
  name ≠ "" ∧ name ≠ "." ∧ name ≠ ".." ∧ '/' ∉ name.toList

instance : DecidablePred IsPlainName := fun name =>
  inferInstanceAs (Decidable (name ≠ "" ∧ name ≠ "." ∧ name ≠ ".." ∧ '/' ∉ name.toList))

namespace Path

variable {path : Path} {name : String}

theorem of_getLast?_dropVoid {parts : List (List Char)} {part : List Char}
    (h : (dropVoid parts).getLast? = some part) : part ∈ parts ∧ isVoid part = false := by
  rw [dropVoid, List.getLast?_reverse] at h
  have hm := (List.dropWhile_suffix isVoid).subset (List.mem_of_head? h)
  have hv := List.head?_dropWhile_not isVoid parts.reverse
  rw [h] at hv
  exact ⟨List.mem_reverse.mp hm, hv⟩

theorem isPlainName_of_fileName? (h : path.fileName? = some name) : IsPlainName name := by
  unfold fileName? at h
  split at h
  · cases h
  next part hp =>
    split at h
    · cases h
    next hup =>
      cases h
      obtain ⟨hm, hv⟩ := of_getLast?_dropVoid hp
      simp only [isVoid, Bool.or_eq_false_iff, beq_eq_false_iff_ne, ne_eq] at hv
      have hne : ∀ cs, part ≠ cs → String.ofList part ≠ String.ofList cs := fun cs hcs he =>
        hcs (String.ofList_injective he)
      refine ⟨hne [] hv.1, hne ['.'] hv.2, hne ['.', '.'] hup, ?_⟩
      rw [String.toList_ofList]
      exact slash_not_mem_of_mem_splitSlash hm

theorem exists_parts_of_fileName? (h : path.fileName? = some name) :
    ∃ parts, path.parts.2 = parts ++ [name.toList] := by
  unfold fileName? at h
  split at h
  · cases h
  next part hp =>
    split at h
    · cases h
    · cases h
      rw [String.toList_ofList]
      exact List.getLast?_eq_some_iff.mp hp

end Path

namespace Location

variable {l : Location}

def IsPlain (l : Location) : Prop := ∀ name ∈ l, IsPlainName name

instance : DecidablePred IsPlain := fun l =>
  inferInstanceAs (Decidable (∀ name ∈ l, IsPlainName name))

theorem isAbsolute_toPath : l.toPath.isAbsolute = true := by
  simp [toPath, Path.isAbsolute]

theorem step_of_isPlainName {name : String} (h : IsPlainName name) : l.step name = l ++ [name] := by
  rw [step, if_neg (not_or.mpr ⟨h.1, h.2.1⟩), if_neg h.2.2.1]

theorem segments_toPath (hl : l.IsPlain) (hne : l ≠ []) : l.toPath.segments = "" :: l := by
  have hlist : l.toPath.toList = ['/'].intercalate ([] :: l.map String.toList) := by
    obtain ⟨name, l, rfl⟩ := List.exists_cons_of_ne_nil hne
    simp [toPath, String.toList_intercalate]
  have hslash : ∀ part ∈ ([] :: l.map String.toList), '/' ∉ part := by
    intro part hm
    rcases List.mem_cons.mp hm with rfl | hm
    · exact List.not_mem_nil
    · obtain ⟨name, hn, rfl⟩ := List.mem_map.mp hm
      exact (hl name hn).2.2.2
  rw [Path.segments, Path.splitSlash_eq, hlist,
    List.splitOn_intercalate _ hslash (List.cons_ne_nil _ _), List.map_cons, List.map_map]
  simp [Function.comp_def]

theorem segments_toPath_nil : (toPath []).segments = ["", ""] := by decide +kernel

end Location

namespace Files

variable {files : Files} {l l' : Location} {path : Path} {name : String} {names : List String}
  {node : Node}

theorem enter_of_isPlainName (hn : IsPlainName name) (h : files.enter l name = .ok l') :
    l' = l ++ [name] := by
  obtain ⟨-, h⟩ := enter_eq_ok_iff.mp h
  rw [if_neg (not_or.mpr ⟨hn.1, hn.2.1⟩), if_neg hn.2.2.1] at h
  exact h.2.2

theorem foldlM_enter_of_isPlain (hn : Location.IsPlain names)
    (h : names.foldlM files.enter l = .ok l') : l' = l ++ names := by
  induction names generalizing l with
  | nil =>
    cases h
    exact (List.append_nil _).symm
  | cons name names ih =>
    obtain ⟨hname, hn⟩ := List.forall_mem_cons.mp hn
    rw [List.foldlM_cons] at h
    obtain ⟨l₁, he, h⟩ := Except.bind_eq_ok_iff.mp h
    rw [ih hn h, enter_of_isPlainName hname he, List.append_assoc, List.singleton_append]

theorem foldlM_enter_root (hn : Location.IsPlain names)
    (h : ("" :: names).foldlM files.enter [] = .ok l') : l' = names := by
  rw [List.foldlM_cons] at h
  obtain ⟨l₁, he, h⟩ := Except.bind_eq_ok_iff.mp h
  have hl₁ : l₁ = [] := by simpa using (enter_eq_ok_iff.mp he).2
  rw [foldlM_enter_of_isPlain hn h, hl₁, List.nil_append]

theorem origin_toPath : files.origin l.toPath = [] := by
  rw [origin, Location.isAbsolute_toPath, if_pos rfl]

theorem resolve_toPath (hl : l.IsPlain) (h : files.resolve l.toPath = .ok l') : l' = l := by
  obtain ⟨-, h⟩ := resolve_eq_ok_iff.mp h
  rw [origin_toPath] at h
  by_cases hne : l = []
  · subst hne
    rw [Location.segments_toPath_nil] at h
    obtain ⟨l₁, he, h⟩ := Except.bind_eq_ok_iff.mp h
    obtain ⟨l₂, he', h⟩ := Except.bind_eq_ok_iff.mp h
    cases h
    have hl₁ : l₁ = [] := by simpa using (enter_eq_ok_iff.mp he).2
    simpa [hl₁] using (enter_eq_ok_iff.mp he').2
  · rw [Location.segments_toPath hl hne] at h
    exact foldlM_enter_root hl h

theorem isPlain_of_enter (hl : l.IsPlain) (hn : '/' ∉ name.toList)
    (h : files.enter l name = .ok l') : l'.IsPlain := by
  obtain ⟨-, h⟩ := enter_eq_ok_iff.mp h
  split at h
  · exact h ▸ hl
  next hvoid =>
    obtain ⟨hempty, hdot⟩ := not_or.mp hvoid
    split at h
    · subst h
      exact fun x hx => hl x (List.dropLast_subset l hx)
    next hup =>
      obtain ⟨-, -, rfl⟩ := h
      intro x hx
      rcases List.mem_append.mp hx with hx | hx
      · exact hl x hx
      · rw [List.mem_singleton.mp hx]
        exact ⟨hempty, hdot, hup, hn⟩

theorem isPlain_of_foldlM_enterPlace (hl : l.IsPlain) (hn : ∀ name ∈ names, '/' ∉ name.toList)
    (h : names.foldlM files.enterPlace l = .ok l') : l'.IsPlain := by
  induction names generalizing l with
  | nil => cases h; exact hl
  | cons name names ih =>
    obtain ⟨hname, hn⟩ := List.forall_mem_cons.mp hn
    rw [List.foldlM_cons] at h
    obtain ⟨l₁, he, h⟩ := Except.bind_eq_ok_iff.mp h
    exact ih (isPlain_of_enter hl hname (enterPlace_eq_ok_iff.mp he).2) hn h

/-- The place that a path leads to, whatever is there. -/
def placeOf (files : Files) (path : Path) : Location :=
  path.segments.foldl Location.step (files.origin path)

theorem placeOf_eq_walk :
    files.placeOf path = (files.origin path).walk (Path.splitSlash path.toList) := by
  rw [placeOf, Path.segments, List.foldl_map, Location.walk]

theorem enter_eq_step (h : files.enter l name = .ok l') : l' = l.step name := by
  obtain ⟨-, h⟩ := enter_eq_ok_iff.mp h
  unfold Location.step
  split at h
  next hn => rw [if_pos hn, h]
  next hn =>
    rw [if_neg hn]
    split at h
    next hn => rw [if_pos hn, h]
    next hn => rw [if_neg hn, h.2.2]

theorem foldlM_eq_foldl_step {f : Location → String → Except SystemFault Location}
    (hf : ∀ l name l', f l name = .ok l' → l' = l.step name) (h : names.foldlM f l = .ok l') :
    l' = names.foldl Location.step l := by
  induction names generalizing l with
  | nil =>
    cases h
    rfl
  | cons name names ih =>
    rw [List.foldlM_cons] at h
    obtain ⟨l₁, he, h⟩ := Except.bind_eq_ok_iff.mp h
    rw [ih h, hf _ _ _ he, List.foldl_cons]

theorem resolve_eq_placeOf (h : files.resolve path = .ok l) : l = files.placeOf path :=
  foldlM_eq_foldl_step (fun _ _ _ => enter_eq_step) (resolve_eq_ok_iff.mp h).2

theorem lookup_eq_placeOf (h : files.lookup path = .ok (l, node)) : l = files.placeOf path :=
  resolve_eq_placeOf (lookup_eq_ok_iff_resolve.mp h).1

theorem locate_eq_placeOf (h : files.locate path = .ok (l, node)) : l = files.placeOf path :=
  foldlM_eq_foldl_step (fun _ _ _ he => enter_eq_step (enterPlace_eq_ok_iff.mp he).2)
    (locate_eq_ok_iff.mp h).2.1

theorem target_eq_placeOf (h : files.target path = .ok l) : l = files.placeOf path := by
  obtain ⟨-, hn, -, around, ha, -, -, rfl⟩ := target_eq_ok_iff.mp h
  obtain ⟨-, hname⟩ := not_or.mp hn
  obtain ⟨hempty, hname⟩ := not_or.mp hname
  obtain ⟨hdot, hup⟩ := not_or.mp hname
  rw [placeOf, hn.segments_eq, List.foldl_append, List.foldl_cons, List.foldl_nil,
    ← foldlM_eq_foldl_step (fun _ _ _ => enter_eq_step) ha, Location.step,
    if_neg (not_or.mpr ⟨hempty, hdot⟩), if_neg hup]

def base (files : Files) (front : List Char) : Location :=
  if front = ['/'] then [] else files.workingDirectory

/-- A path is absolute or leads on from the working directory; a single dot in front of it leads
nowhere. -/
theorem placeOf_eq_walk_front {front body : List Char}
    (h : Path.front path.toList = (front, body)) :
    files.placeOf path = (files.base front).walk (Path.splitSlash body) := by
  rw [placeOf_eq_walk, origin, Path.isAbsolute]
  rcases Path.front_cases h with ⟨rfl, he⟩ | ⟨rfl, he, rfl | ⟨body, rfl⟩⟩ | ⟨rfl, he, hhead⟩
  · rw [he]
    exact Location.walk_cons_of_isVoid rfl
  · rw [he]
    exact Location.walk_cons_of_isVoid rfl
  · rw [he, Path.splitSlash_dot_slash, Path.splitSlash_cons_slash,
      Location.walk_cons_of_isVoid rfl, Location.walk_cons_of_isVoid rfl]
    rfl
  · rw [he, if_neg (mt beq_iff_eq.mp hhead)]
    rfl

theorem outputDirectory_eq {parent : Path} (h : path.parent? = some parent) :
    outputDirectory path = if parent = "" then "." else parent := by
  unfold outputDirectory
  rw [h]
  split
  next he => cases he
  next he =>
    cases he
    rfl
  next hne he =>
    cases he
    rw [if_neg hne]

theorem placeOf_outputDirectory {front body part : List Char} {parts : List (List Char)}
    (h : Path.front path.toList = (front, body))
    (hp : Path.dropVoid (Path.splitSlash body) = parts ++ [part]) :
    files.placeOf (outputDirectory path) = (files.base front).walk parts := by
  have hparent : path.parent? =
      some (String.ofList (front ++ Path.joinSlash (Path.dropVoid parts))) := by
    simp only [Path.parent?, Path.parts, h, hp, List.reverse_append, List.reverse_singleton,
      List.singleton_append, List.reverse_reverse]
  have hpre : Path.dropVoid parts <+: Path.splitSlash body :=
    ((Path.dropVoid_prefix parts).trans (List.prefix_append parts [part])).trans
      (hp ▸ Path.dropVoid_prefix _)
  have hslash : ∀ p ∈ Path.dropVoid parts, '/' ∉ p := fun p hm =>
    Path.slash_not_mem_of_mem_splitSlash (hpre.subset hm)
  have hwalk : ∀ l : Location, l.walk (Path.splitSlash (Path.joinSlash (Path.dropVoid parts))) =
      l.walk parts := fun l => by
    rw [Location.walk_splitSlash_joinSlash hslash, Location.walk_dropVoid]
  rw [outputDirectory_eq hparent, ← hwalk]
  split
  next he =>
    have hlist := congrArg String.toList he
    rw [String.toList_ofList] at hlist
    obtain ⟨rfl, hx⟩ := List.append_eq_nil_iff.mp hlist
    rw [hx]
    have hdot : files.placeOf "." = (files.base ['.']).walk (Path.splitSlash []) :=
      placeOf_eq_walk_front rfl
    exact hdot
  · refine placeOf_eq_walk_front ?_
    rw [String.toList_ofList]
    exact Path.front_joinSlash h hpre

/-- An output is written where its path leads. -/
theorem outputLocation_eq_placeOf (h : files.outputLocation path = .ok l) :
    l = files.placeOf path := by
  simp only [outputLocation] at h
  split at h
  · cases h
  next around hl =>
    split at h
    · cases h
    next name hname =>
      cases h
      obtain ⟨parts, hp⟩ := Path.exists_parts_of_fileName? hname
      rcases hf : Path.front path.toList with ⟨front, body⟩
      rw [Path.parts, hf] at hp
      calc around ++ [name]
          = ((files.base front).walk parts).step name := by
            rw [locate_eq_placeOf hl, placeOf_outputDirectory hf hp,
              Location.step_of_isPlainName (Path.isPlainName_of_fileName? hname)]
        _ = (files.base front).walk (Path.dropVoid (Path.splitSlash body)) := by
            rw [show Path.dropVoid (Path.splitSlash body) = _ from hp, Location.walk_concat,
              String.ofList_toList]
        _ = files.placeOf path := by
            rw [Location.walk_dropVoid, placeOf_eq_walk_front hf]
  · cases h

variable (hw : files.workingDirectory.IsPlain)
include hw

theorem isPlain_of_locate (h : files.locate path = .ok (l, node)) : l.IsPlain := by
  obtain ⟨-, h, -⟩ := locate_eq_ok_iff.mp h
  refine isPlain_of_foldlM_enterPlace ?_ (fun _ => Path.slash_not_mem_of_mem_segments) h
  unfold origin
  split
  · exact fun _ hm => absurd hm List.not_mem_nil
  · exact hw

theorem isPlain_of_inputLocation (h : files.inputLocation path = .ok l) : l.IsPlain := by
  unfold inputLocation at h
  split at h
  · cases h
  · cases h
  next hl => cases h; exact isPlain_of_locate hw hl

end Files

end ComponentIdentity
