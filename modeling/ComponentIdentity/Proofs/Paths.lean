import Mathlib.Data.List.TakeWhile
import ComponentIdentity.Files.Index

/-! # Where a path leads

A path leads through directories to a place. It still does when files are
written and removed, as long as no directory goes and the place holds something.
-/

namespace ComponentIdentity

namespace Path

def names (path : Path) : List String := (path.segments.reverse.dropWhile (· = "")).reverse

def NamesFile (path : Path) : Prop :=
  ¬ (path.segments.getLast? = some "" ∨ path.names.getLastD "" = "" ∨
    path.names.getLastD "" = "." ∨ path.names.getLastD "" = "..")

theorem NamesFile.segments_eq {path : Path} (h : path.NamesFile) :
    path.segments = path.names.dropLast ++ [path.names.getLastD ""] := by
  obtain ⟨hs, h⟩ := not_or.mp h
  obtain ⟨hn, -⟩ := not_or.mp h
  rcases path.segments.eq_nil_or_concat with he | ⟨segments, name, he⟩
  · simp [names, he] at hn
  · rw [List.concat_eq_append] at he
    have hname : name ≠ "" := by simpa [he] using hs
    have hnames : path.names = segments ++ [name] := by simp [names, he, hname]
    rw [he, hnames, List.dropLast_concat, List.getLastD_concat]

end Path

namespace Files

variable {files files' : Files} {l l' : Location} {path : Path} {name : String} {node : Node}

theorem node?_put (hl : l ≠ []) :
    (files.put l node).node? l' = if l = l' then some node else files.node? l' := by
  cases l' with
  | nil => rw [if_neg hl]; rfl
  | cons a l' =>
    simp only [node?, put, Std.ExtTreeMap.getElem?_insert, Std.LawfulEqCmp.compare_eq_iff_eq]

theorem node?_erase (hl : l ≠ []) :
    (files.erase l).node? l' = if l = l' then none else files.node? l' := by
  cases l' with
  | nil => rw [if_neg hl]; rfl
  | cons a l' =>
    simp only [node?, erase, Std.ExtTreeMap.getElem?_erase, Std.LawfulEqCmp.compare_eq_iff_eq]

theorem nodeAt_eq_ok_iff : files.nodeAt l = .ok node ↔ files.node? l = some node := by
  unfold nodeAt
  split <;> simp_all

/-- Every directory stays one, and paths start where they started. -/
structure Extends (files files' : Files) : Prop where
  workingDirectory_eq : files'.workingDirectory = files.workingDirectory
  directory : ∀ l, files.node? l = some .directory → files'.node? l = some .directory

theorem Extends.refl : Extends files files := ⟨rfl, fun _ h => h⟩

theorem Extends.trans {files'' : Files} (h : Extends files files') (h' : Extends files' files'') :
    Extends files files'' :=
  ⟨h'.workingDirectory_eq.trans h.workingDirectory_eq, fun l hl => h'.directory l (h.directory l hl)⟩

theorem extends_hold : Extends files (files.hold l) := ⟨rfl, fun _ h => h⟩

theorem extends_release : Extends files (files.release l) := ⟨rfl, fun _ h => h⟩

theorem extends_put (hl : l ≠ []) (hd : files.node? l ≠ some .directory) :
    Extends files (files.put l node) where
  workingDirectory_eq := rfl
  directory l' h := by
    rw [node?_put hl, if_neg (by rintro rfl; exact hd h), h]

theorem extends_erase (hl : l ≠ []) (hd : files.node? l ≠ some .directory) :
    Extends files (files.erase l) where
  workingDirectory_eq := rfl
  directory l' h := by
    rw [node?_erase hl, if_neg (by rintro rfl; exact hd h), h]

theorem Extends.origin_eq (hf : Extends files files') : files'.origin path = files.origin path := by
  rw [origin, origin, hf.workingDirectory_eq]

theorem checkDirectory_eq_ok_iff :
    files.checkDirectory l = .ok () ↔ files.node? l = some .directory := by
  unfold checkDirectory
  split <;> simp_all

theorem Extends.checkDirectory (hf : Extends files files')
    (h : files.checkDirectory l = .ok ()) : files'.checkDirectory l = .ok () := by
  rw [checkDirectory_eq_ok_iff] at h ⊢
  exact hf.directory l h

theorem enter_eq_ok_iff :
    files.enter l name = .ok l' ↔
      files.checkDirectory l = .ok () ∧
        if name = "" ∨ name = "." then l' = l
        else if name = ".." then l' = l.dropLast
        else checkName name = .ok () ∧ (files.node? (l ++ [name])).isSome ∧ l' = l ++ [name] := by
  unfold enter
  simp only [Except.bind_eq_ok_iff]
  constructor
  · rintro ⟨⟨⟩, hd, h⟩
    refine ⟨hd, ?_⟩
    split at h
    next hn => rw [if_pos hn]; cases h; rfl
    next hn =>
      rw [if_neg hn]
      split at h
      next hn => rw [if_pos hn]; cases h; rfl
      next hn =>
        rw [if_neg hn]
        obtain ⟨⟨⟩, hc, h⟩ := Except.bind_eq_ok_iff.mp h
        split at h
        next hs => cases h; exact ⟨hc, by rw [hs]; rfl, rfl⟩
        · cases h
  · rintro ⟨hd, h⟩
    refine ⟨(), hd, ?_⟩
    split at h
    next hn => rw [if_pos hn, h]; rfl
    next hn =>
      rw [if_neg hn]
      split at h
      next hn => rw [if_pos hn, h]; rfl
      next hn =>
        obtain ⟨hc, hs, rfl⟩ := h
        obtain ⟨node, hs⟩ := Option.isSome_iff_exists.mp hs
        rw [if_neg hn, hc, hs]
        rfl

theorem Extends.enter (hf : Extends files files') (h : files.enter l name = .ok l')
    (hs : (files'.node? l').isSome) : files'.enter l name = .ok l' := by
  obtain ⟨hd, h⟩ := enter_eq_ok_iff.mp h
  refine enter_eq_ok_iff.mpr ⟨hf.checkDirectory hd, ?_⟩
  split at h
  next hn => rw [if_pos hn]; exact h
  next hn =>
    rw [if_neg hn]
    split at h
    next hn => rw [if_pos hn]; exact h
    next hn =>
      obtain ⟨hc, -, rfl⟩ := h
      rw [if_neg hn]
      exact ⟨hc, hs, rfl⟩

theorem Extends.foldlM_of_step {step step' : Location → String → Except SystemFault Location}
    (hstep : ∀ l name l', step l name = .ok l' → (files'.node? l').isSome →
      step' l name = .ok l')
    (hdir : ∀ l name l', step l name = .ok l' → files.node? l = some .directory)
    (hf : Extends files files') {names : List String}
    (h : names.foldlM step l = .ok l') (hs : (files'.node? l').isSome) :
    names.foldlM step' l = .ok l' := by
  induction names generalizing l with
  | nil => exact h
  | cons name names ih =>
    rw [List.foldlM_cons] at h ⊢
    obtain ⟨l₁, hl, h⟩ := Except.bind_eq_ok_iff.mp h
    have hs₁ : (files'.node? l₁).isSome := by
      cases names with
      | nil => cases h; exact hs
      | cons name' names =>
        obtain ⟨l₂, hl₂, -⟩ := Except.bind_eq_ok_iff.mp h
        rw [hf.directory l₁ (hdir _ _ _ hl₂)]
        rfl
    rw [hstep _ _ _ hl hs₁]
    exact ih h

theorem node?_of_enter (h : files.enter l name = .ok l') : files.node? l = some .directory :=
  checkDirectory_eq_ok_iff.mp (enter_eq_ok_iff.mp h).1

theorem Extends.foldlM_enter (hf : Extends files files') {names : List String}
    (h : names.foldlM files.enter l = .ok l') (hs : (files'.node? l').isSome) :
    names.foldlM files'.enter l = .ok l' :=
  hf.foldlM_of_step (fun _ _ _ => hf.enter) (fun _ _ _ => node?_of_enter) h hs

theorem lookup_eq_ok_iff_resolve :
    files.lookup path = .ok (l, node) ↔ files.resolve path = .ok l ∧ files.node? l = some node := by
  simp only [lookup, Except.bind_eq_ok_iff, nodeAt_eq_ok_iff]
  constructor
  · rintro ⟨l, hr, node, hn, ⟨⟩⟩
    exact ⟨hr, hn⟩
  · rintro ⟨hr, hn⟩
    exact ⟨l, hr, node, hn, rfl⟩

theorem resolve_eq_ok_iff :
    files.resolve path = .ok l ↔
      checkPath path = .ok () ∧ path.segments.foldlM files.enter (files.origin path) = .ok l := by
  simp only [resolve, Except.bind_eq_ok_iff]
  exact ⟨fun ⟨_, hp, h⟩ => ⟨hp, h⟩, fun ⟨hp, h⟩ => ⟨(), hp, h⟩⟩

/-- A path leads where it led, to whatever is there now. -/
theorem Extends.lookup {node' : Node} (hf : Extends files files')
    (h : files.lookup path = .ok (l, node)) (hn : files'.node? l = some node') :
    files'.lookup path = .ok (l, node') := by
  obtain ⟨hr, -⟩ := lookup_eq_ok_iff_resolve.mp h
  obtain ⟨hp, hr⟩ := resolve_eq_ok_iff.mp hr
  refine lookup_eq_ok_iff_resolve.mpr ⟨resolve_eq_ok_iff.mpr ⟨hp, ?_⟩, hn⟩
  rw [hf.origin_eq]
  exact hf.foldlM_enter hr (by rw [hn]; rfl)

theorem enterPlace_eq_ok_iff :
    files.enterPlace l name = .ok l' ↔
      (name ≠ "" ∧ name ≠ "." ∧ name ≠ ".." → checkLength (l ++ [name]).toPath = .ok ()) ∧
        files.enter l name = .ok l' := by
  unfold enterPlace
  split
  next hn =>
    simp only [Except.bind_eq_ok_iff]
    exact ⟨fun ⟨_, hc, h⟩ => ⟨fun _ => hc, h⟩, fun ⟨hc, h⟩ => ⟨(), hc hn, h⟩⟩
  next hn => exact ⟨fun h => ⟨fun hn' => absurd hn' hn, h⟩, fun h => h.2⟩

theorem locate_eq_ok_iff :
    files.locate path = .ok (l, node) ↔
      checkText path = .ok () ∧
        path.segments.foldlM files.enterPlace (files.origin path) = .ok l ∧
          files.node? l = some node := by
  simp only [locate, Except.bind_eq_ok_iff, nodeAt_eq_ok_iff]
  constructor
  · rintro ⟨_, hp, l, hr, node, hn, ⟨⟩⟩
    exact ⟨hp, hr, hn⟩
  · rintro ⟨hp, hr, hn⟩
    exact ⟨(), hp, l, hr, node, hn, rfl⟩

theorem Extends.locate {node' : Node} (hf : Extends files files')
    (h : files.locate path = .ok (l, node)) (hn : files'.node? l = some node') :
    files'.locate path = .ok (l, node') := by
  obtain ⟨hp, hr, -⟩ := locate_eq_ok_iff.mp h
  refine locate_eq_ok_iff.mpr ⟨hp, ?_, hn⟩
  rw [hf.origin_eq]
  refine hf.foldlM_of_step (fun l name l' hl hs => ?_) (fun l name l' hl => ?_) hr (by rw [hn]; rfl)
  · obtain ⟨hc, he⟩ := enterPlace_eq_ok_iff.mp hl
    exact enterPlace_eq_ok_iff.mpr ⟨hc, hf.enter he hs⟩
  · exact node?_of_enter (enterPlace_eq_ok_iff.mp hl).2

/-- The target of a path is in a directory and holds none itself. -/
theorem target_eq_ok_iff :
    files.target path = .ok l ↔
      checkPath path = .ok () ∧ path.NamesFile ∧ checkName (path.names.getLastD "") = .ok () ∧
        ∃ around, path.names.dropLast.foldlM files.enter (files.origin path) = .ok around ∧
          files.checkDirectory around = .ok () ∧ files.node? l ≠ some .directory ∧
          l = around ++ [path.names.getLastD ""] := by
  unfold target
  simp only [Except.bind_eq_ok_iff]
  constructor
  · rintro ⟨⟨⟩, hp, around, ha, ⟨⟩, hd, h⟩
    split at h
    · cases h
    next hn =>
      obtain ⟨⟨⟩, hc, h⟩ := Except.bind_eq_ok_iff.mp h
      split at h
      · cases h
      next hl =>
        cases h
        exact ⟨hp, hn, hc, around, ha, hd, hl, rfl⟩
  · rintro ⟨hp, hn, hc, around, ha, hd, hl, rfl⟩
    refine ⟨(), hp, around, ha, (), hd, (if_neg hn).trans ?_⟩
    refine Except.bind_eq_ok_iff.mpr ⟨(), hc, ?_⟩
    split
    next h => exact absurd h hl
    · rfl

theorem target_ne_nil (h : files.target path = .ok l) : l ≠ [] := by
  obtain ⟨-, -, -, around, -, -, -, rfl⟩ := target_eq_ok_iff.mp h
  exact List.concat_ne_nil _ _

theorem node?_target_ne_directory (h : files.target path = .ok l) :
    files.node? l ≠ some .directory := by
  obtain ⟨-, -, -, -, -, -, hd, -⟩ := target_eq_ok_iff.mp h
  exact hd

theorem Extends.target (hf : Extends files files') (h : files.target path = .ok l)
    (hd : files'.node? l ≠ some .directory) : files'.target path = .ok l := by
  obtain ⟨hp, hn, hc, around, ha, hr, -, hl⟩ := target_eq_ok_iff.mp h
  have hr' := hf.directory around (checkDirectory_eq_ok_iff.mp hr)
  refine target_eq_ok_iff.mpr ⟨hp, hn, hc, around, ?_, hf.checkDirectory hr, hd, hl⟩
  rw [hf.origin_eq]
  exact hf.foldlM_enter ha (by rw [hr']; rfl)

theorem lookup_eq_ok_iff (h : files.target path = .ok l) :
    files.lookup path = .ok (l', node) ↔ l' = l ∧ files.node? l = some node := by
  obtain ⟨hp, hn, hc, around, ha, hr, -, rfl⟩ := target_eq_ok_iff.mp h
  obtain ⟨-, hnames⟩ := not_or.mp hn
  have he : ∀ l', files.enter around (path.names.getLastD "") = .ok l' ↔
      (files.node? (around ++ [path.names.getLastD ""])).isSome ∧
        l' = around ++ [path.names.getLastD ""] := by
    intro l'
    have hvoid : ¬ (path.names.getLastD "" = "" ∨ path.names.getLastD "" = ".") :=
      fun h => hnames (h.imp_right .inl)
    have hup : path.names.getLastD "" ≠ ".." := fun h => hnames (.inr (.inr h))
    rw [enter_eq_ok_iff, if_neg hvoid, if_neg hup]
    exact ⟨fun h => h.2.2, fun h => ⟨hr, hc, h⟩⟩
  have hres : files.resolve path = files.enter around (path.names.getLastD "") := by
    rw [resolve, hp, hn.segments_eq]
    change List.foldlM files.enter _ _ = _
    rw [List.foldlM_append, ha]
    exact bind_pure (files.enter around (path.names.getLastD ""))
  rw [lookup_eq_ok_iff_resolve, hres, he]
  constructor
  · rintro ⟨⟨-, rfl⟩, hs⟩
    exact ⟨rfl, hs⟩
  · rintro ⟨rfl, hs⟩
    exact ⟨⟨by rw [hs]; rfl, rfl⟩, hs⟩

end Files

end ComponentIdentity
