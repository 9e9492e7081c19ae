import ComponentIdentity.Proofs.Continuity

/-! # Files in directories

Whatever is in place lies in a directory, and no call of the program changes
that. So the path of a file is good for making one in its place, once the file
was removed, and the place of an output is reached under its own path.
-/

namespace ComponentIdentity

namespace Path

variable {path : Path} {segments : List String} {name : String}

theorem segments_ne_nil : path.segments ≠ [] := by
  rw [Path.segments, splitSlash_eq]
  simp

theorem names_eq (h : path.segments = segments ++ [name]) (hn : name ≠ "") :
    path.names = segments ++ [name] := by
  simp [names, h, hn]

end Path

namespace Files

variable {files files' : Files} {l l' : Location} {path : Path} {node : Node} {now : Option Node}
  {tables : IdentityTables} {opened recorded : OpenIndex} {cache : RefCache} {n : Nat}

/-- Everything lies in a directory, databases came about by recording, and the working directory
has the path of a place. -/
structure WellFormed (files : Files) : Prop where
  workingDirectory : files.workingDirectory.IsPlain
  around : ∀ l name, (files.node? (l ++ [name])).isSome → files.node? l = some .directory
  recorded : ∀ l tables, files.node? l = some (.database tables) → tables.Recorded

theorem wellFormed_of_toList (hw : files.workingDirectory.IsPlain)
    (ha : ∀ e ∈ files.nodes.toList, files.node? e.1.dropLast = some .directory)
    (hr : ∀ e ∈ files.nodes.toList, ∀ tables, e.2 = .database tables → tables.Recorded) :
    files.WellFormed := by
  have hmem : ∀ l node, l ≠ [] → files.node? l = some node → (l, node) ∈ files.nodes.toList := by
    intro l node hne hn
    obtain ⟨name, l, rfl⟩ := List.exists_cons_of_ne_nil hne
    exact Std.ExtTreeMap.mem_toList_iff_getElem?_eq_some.mpr hn
  refine ⟨hw, fun l name hs => ?_, fun l tables hn => ?_⟩
  · obtain ⟨node, hn⟩ := Option.isSome_iff_exists.mp hs
    have := ha _ (hmem _ node (List.concat_ne_nil _ _) hn)
    rwa [List.dropLast_concat] at this
  · refine hr _ (hmem l _ ?_ hn) tables rfl
    rintro rfl
    cases hn

theorem WellFormed.dropLast (h : files.WellFormed) (hd : files.node? l = some .directory) :
    files.node? l.dropLast = some .directory := by
  rcases l.eq_nil_or_concat with rfl | ⟨l, name, rfl⟩
  · exact hd
  · rw [List.concat_eq_append] at hd ⊢
    rw [List.dropLast_concat]
    exact h.around l name (by rw [hd]; rfl)

theorem WellFormed.target_of_lookup (h : files.WellFormed) (hl : files.lookup path = .ok (l, node))
    (hn : node ≠ .directory) : files.target path = .ok l := by
  obtain ⟨hr, hnode⟩ := lookup_eq_ok_iff_resolve.mp hl
  obtain ⟨hp, hr⟩ := resolve_eq_ok_iff.mp hr
  have hdir : files.node? l ≠ some .directory := (lookup_of_removed hl hn).2
  rcases path.segments.eq_nil_or_concat with hs | ⟨segments, name, hs⟩
  · exact absurd hs Path.segments_ne_nil
  rw [List.concat_eq_append] at hs
  rw [hs, List.foldlM_append] at hr
  obtain ⟨around, ha, hr⟩ := Except.bind_eq_ok_iff.mp hr
  obtain ⟨_, he, hpure⟩ := Except.bind_eq_ok_iff.mp hr
  cases hpure
  obtain ⟨hd, he⟩ := enter_eq_ok_iff.mp he
  have haround := checkDirectory_eq_ok_iff.mp hd
  split at he
  · exact absurd (he ▸ haround) hdir
  next hvoid =>
    obtain ⟨hempty, hdot⟩ := not_or.mp hvoid
    split at he
    · exact absurd (he ▸ h.dropLast haround) hdir
    next hup =>
      obtain ⟨hc, -, rfl⟩ := he
      have hnames := Path.names_eq hs hempty
      have hlast : path.names.getLastD "" = name := by rw [hnames, List.getLastD_concat]
      refine target_eq_ok_iff.mpr ⟨hp, ?_, hlast.symm ▸ hc, around, ?_, hd, hdir, by rw [hlast]⟩
      · rw [Path.NamesFile, hlast, hs]
        simp [hempty, hdot, hup]
      · rw [hnames, List.dropLast_concat]
        exact ha

/-- Where a file was removed an empty database can be opened. -/
theorem WellFormed.openIndex_erase (h : files.WellFormed)
    (hl : files.lookup path = .ok (l, node)) (hn : node ≠ .directory) :
    (files.erase l).openIndex path =
      .ok (⟨l, .empty⟩, (files.erase l).put l (.database .empty)) := by
  obtain ⟨hne, hdir⟩ := lookup_of_removed hl hn
  have hnone : (files.erase l).node? l = none := by rw [node?_erase hne, if_pos rfl]
  refine openIndex_eq_ok_iff.mpr ⟨?_, tablesAt_eq_ok_iff.mpr ⟨?_, .inr ⟨rfl, rfl, .inl hnone⟩⟩, rfl⟩
  · exact (extends_erase hne hdir).target (h.target_of_lookup hl hn) (by simp [hnone])
  · simp [erase]

theorem target_toPath (hl : l.IsPlain) (hne : l ≠ []) (h : files.target l.toPath = .ok l') :
    l' = l := by
  obtain ⟨-, hnames, -, around, ha, -, -, rfl⟩ := target_eq_ok_iff.mp h
  rcases l.eq_nil_or_concat with rfl | ⟨l, name, rfl⟩
  · exact absurd rfl hne
  rw [List.concat_eq_append] at *
  have hs := hnames.segments_eq.symm.trans (Location.segments_toPath hl hne)
  rw [← List.cons_append] at hs
  obtain ⟨hfront, hlast⟩ := List.append_inj' hs rfl
  rw [hfront, origin_toPath] at ha
  rw [foldlM_enter_root (fun x hx => hl x (List.mem_append_left _ hx)) ha, hlast]

theorem isPlain_of_outputLocation (hw : files.workingDirectory.IsPlain)
    (h : files.outputLocation path = .ok l) : l.IsPlain ∧ l ≠ [] := by
  simp only [outputLocation] at h
  split at h
  · cases h
  next around hl =>
    split at h
    · cases h
    next name hname =>
      cases h
      refine ⟨fun x hx => ?_, List.concat_ne_nil _ _⟩
      rcases List.mem_append.mp hx with hx | hx
      · exact isPlain_of_locate hw hl x hx
      · rw [List.mem_singleton.mp hx]
        exact Path.isPlainName_of_fileName? hname
  · cases h

theorem node?_dropLast_target (h : files.target path = .ok l) :
    files.node? l.dropLast = some .directory := by
  obtain ⟨-, -, -, around, -, hd, -, rfl⟩ := target_eq_ok_iff.mp h
  rw [List.dropLast_concat]
  exact checkDirectory_eq_ok_iff.mp hd

/-- One place that is no directory may change, if something new comes into a directory. -/
theorem WellFormed.change (h : files.WellFormed)
    (hw : files'.workingDirectory = files.workingDirectory)
    (hd : files.node? l ≠ some .directory)
    (hn : ∀ l', files'.node? l' = if l = l' then now else files.node? l')
    (hin : now.isSome → files.node? l.dropLast = some .directory)
    (hr : ∀ tables, now = some (.database tables) → tables.Recorded) : files'.WellFormed where
  workingDirectory := hw ▸ h.workingDirectory
  around l' name hs := by
    rw [hn] at hs
    have hdir : files.node? l' = some .directory := by
      split at hs
      next he =>
        have := hin hs
        rwa [he, List.dropLast_concat] at this
      · exact h.around l' name hs
    rw [hn, if_neg (by rintro rfl; exact hd hdir), hdir]
  recorded l' tables ht := by
    rw [hn] at ht
    split at ht
    · exact hr tables ht
    · exact h.recorded l' tables ht

theorem WellFormed.put (h : files.WellFormed) (ht : files.target path = .ok l)
    (hr : ∀ tables, node = .database tables → tables.Recorded) : (files.put l node).WellFormed :=
  h.change rfl (node?_target_ne_directory ht) (fun _ => node?_put (target_ne_nil ht))
    (fun _ => node?_dropLast_target ht) fun tables he => hr tables (Option.some.inj he)

theorem WellFormed.erase (h : files.WellFormed) (hl : files.lookup path = .ok (l, node))
    (hn : node ≠ .directory) : (files.erase l).WellFormed := by
  obtain ⟨hne, hdir⟩ := lookup_of_removed hl hn
  exact h.change rfl hdir (fun _ => node?_erase hne) (by simp) (by simp)

theorem WellFormed.recorded_opened (h : files.WellFormed)
    (ho : files.openIndex path = .ok (opened, files')) : opened.tables.Recorded := by
  obtain ⟨-, ht, -⟩ := openIndex_eq_ok_iff.mp ho
  rcases (tablesAt_eq_ok_iff.mp ht).2 with hn | ⟨-, he, -⟩
  · exact h.recorded _ _ hn
  · exact he ▸ .empty

theorem WellFormed.openIndex (h : files.WellFormed)
    (ho : files.openIndex path = .ok (opened, files')) : files'.WellFormed := by
  have hr := h.recorded_opened ho
  obtain ⟨ht, -, rfl⟩ := openIndex_eq_ok_iff.mp ho
  refine h.put ht ?_
  rintro tables ⟨⟩
  exact hr

theorem WellFormed.record (h : files.WellFormed) {files₁ : Files}
    (ho : files.openIndex path = .ok (opened, files₁)) (hc : cache.Consistent)
    (hrec : files₁.record opened cache = .ok (recorded, n, files')) : files'.WellFormed := by
  obtain ⟨hl, -, -⟩ := openIndex_location ho
  obtain ⟨changes, hch, -, he, -, hn⟩ := record_cases hl (node?_opened ho) hrec
  have hdir : files₁.node? opened.location ≠ some .directory := by simp [node?_opened ho]
  refine (h.openIndex ho).change he.workingDirectory_eq hdir hn (fun _ => ?_) ?_
  · obtain ⟨ht, -, -⟩ := openIndex_eq_ok_iff.mp ho
    exact (extends_of_openIndex ho).directory _ (node?_dropLast_target ht)
  · rintro tables ⟨⟩
    refine .record (h.recorded_opened ho) hc (n := changes.length) ?_
    rw [IdentityTables.record, hch]
    rfl

end Files

namespace Command

variable {settings : Settings} {command : Command} {files files' : Files}

theorem Leaves.wellFormed (h : Leaves settings files command files') (hw : files.WellFormed) :
    files'.WellFormed := by
  cases h with
  | same => exact hw
  | opened _ ho => exact hw.openIndex ho
  | recorded ho hres hrec => exact hw.record ho (Resolution.suits_of_resolve hres).1 hrec
  | encoded _ _ ht => exact hw.put ht fun _ he => nomatch he
  | removed hl hn => exact hw.erase hl hn
  | renewed hl hn ho => exact (hw.erase hl hn).openIndex ho

end Command

namespace CommandLine

variable {files : Files}

theorem Call.wellFormed (call : Call) (hw : files.WellFormed) : (call.run files).2.WellFormed := by
  rcases run_cases call files with he | ⟨settings, command, -, hl⟩
  · rwa [he]
  · exact hl.wellFormed hw

end CommandLine

end ComponentIdentity
