import ComponentIdentity.Proofs.Delimited

/-! # Shortest spellings

No spelling of a value is shorter than the one that is written, and components
that change places take as many bytes as before. So a binary report that is read
and written again has not grown.
-/

namespace ComponentIdentity

theorem Varint.length_encode_le {n : Nat} {bytes : Bytes} (h : Digits n bytes) :
    (encode n).length ≤ bytes.length := by
  induction h with
  | last hb =>
    rw [encode, if_pos hb]
    exact Nat.le_refl _
  | @more b n bytes _ _ ih =>
    have hhigh : (b.toNat - 128 + 128 * n) / 128 = n := by
      have := b.toNat_lt
      omega
    rw [encode]
    split
    · exact Nat.succ_le_succ (Nat.zero_le _)
    · rw [hhigh]
      exact Nat.succ_le_succ ih

namespace Payload

variable {α : Type} {spelled : α → Bytes → Prop} {write : α → Bytes}

/-- Nothing that spells a value is shorter than what is written. -/
def Shortest (write : α → Bytes) (spelled : α → Bytes → Prop) : Prop :=
  ∀ ⦃a : α⦄ ⦃bytes : Bytes⦄, spelled a bytes → (write a).length ≤ bytes.length

theorem shortest_writeRef : Shortest writeRef LooseRef := fun _ _ => Varint.length_encode_le

theorem shortest_writeText : Shortest writeText LooseText := by
  rintro s _ ⟨size, hs, rfl⟩
  rw [writeText, List.length_append, List.length_append]
  exact Nat.add_le_add_right (Varint.length_encode_le hs) _

theorem Shortest.option (h : Shortest write spelled) :
    Shortest (writeOption write) (SpelledOption spelled) := by
  intro o bytes ho
  cases ho with
  | none => exact Nat.le_refl _
  | some ha => exact Nat.succ_le_succ (h ha)

theorem Shortest.many (h : Shortest write spelled) {as : List α} {bytes : Bytes}
    (hs : SpelledMany spelled as bytes) : (as.flatMap write).length ≤ bytes.length := by
  induction hs with
  | nil => exact Nat.le_refl _
  | cons ha _ ih =>
    rw [List.flatMap_cons, List.length_append, List.length_append]
    exact Nat.add_le_add (h ha) ih

theorem Shortest.list (h : Shortest write spelled) :
    Shortest (writeList write) (LooseList spelled) := by
  rintro as _ ⟨count, items, hc, hs, rfl⟩
  rw [writeList, List.length_append, List.length_append]
  exact Nat.add_le_add (Varint.length_encode_le hc) (h.many hs)

theorem shortest_writeMetadata : Shortest writeMetadata LooseMetadata := by
  rintro m _ ⟨root, branch, hr, hb, rfl⟩
  rw [writeMetadata, List.length_append, List.length_append]
  exact Nat.add_le_add (shortest_writeRef hr) (shortest_writeText.option hb)

theorem shortest_writeComponent : Shortest writeComponent LooseComponent := by
  rintro c _ ⟨ref, kind, key, path, children, hr, hk, hkey, hpath, hc, rfl⟩
  have hr := shortest_writeRef hr
  have hk : (writeKind c.kind).length ≤ kind.length := Varint.length_encode_le hk
  have hkey := shortest_writeText.option hkey
  have hpath := shortest_writeText.option hpath
  have hc := shortest_writeRef.list hc
  simp only [writeComponent, List.length_append]
  omega

theorem shortest_write {m : Metadata} {cs : List Component} {bytes : Bytes}
    (h : LooseFields m cs bytes) :
    (writeMetadata m ++ writeList writeComponent cs).length ≤ bytes.length := by
  obtain ⟨front, back, hm, hc, rfl⟩ := h
  rw [List.length_append, List.length_append]
  exact Nat.add_le_add (shortest_writeMetadata hm) (shortest_writeComponent.list hc)

theorem length_writeList_of_perm {as bs : List α} (h : as.Perm bs) :
    (writeList write as).length = (writeList write bs).length := by
  rw [writeList, writeList, List.length_append, List.length_append, h.length_eq,
    (h.flatMap_right write).length_eq]

end Payload

namespace Report

variable {report : Report} {m : Metadata} {cs : List Component} {bytes : Bytes}

theorem length_toBytes_le (hs : Spelled bytes m cs) (hd : Declarable cs)
    (hr : report.Declares m cs) : report.toBytes.length ≤ bytes.length := by
  obtain ⟨payload, tail, hs, rfl⟩ := hs
  have hle := Payload.shortest_write hs.loose
  have hlist : (Payload.writeList Payload.writeComponent report.toList).length =
      (Payload.writeList Payload.writeComponent cs).length :=
    Payload.length_writeList_of_perm (hr.toList_perm hd.nodup)
  rw [toBytes_eq_append, hr.metadata_eq]
  simp only [List.length_append] at hle ⊢
  omega

/-- What is written of a report that was read is no longer than what was read, and it reads as the
same report: the writer gives a shortest of all the byte strings that read as the report. -/
theorem toBytes_shortest (h : ofBytes bytes = .ok report) :
    report.toBytes.length ≤ bytes.length ∧ ofBytes report.toBytes = .ok report := by
  have hl := length_le_of_ofBytes h
  obtain ⟨m, cs, hs, hd, hr⟩ := (ofBytes_eq_ok_iff hl).mp h
  have hle := length_toBytes_le hs hd hr
  exact ⟨hle, ofBytes_toBytes (Nat.le_trans hle hl)⟩

theorem toBytes_shortest_looseBytes : ∃ report,
    ofBytes looseBytes = .ok report ∧ report.toBytes.length ≤ looseBytes.length ∧
      report.toBytes ≠ looseBytes ∧ ofBytes report.toBytes = .ok report := by
  have hl : (ofBytes looseBytes).toOption.map (·.toBytes.length) = some 24 := by decide +kernel
  cases hb : ofBytes looseBytes with
  | error e => rw [hb] at hl; cases hl
  | ok report =>
    rw [hb] at hl
    have hne : report.toBytes ≠ looseBytes := fun he =>
      absurd ((congrArg List.length he).symm.trans (Option.some.inj hl)) (by decide)
    obtain ⟨hle, hr⟩ := toBytes_shortest hb
    exact ⟨report, rfl, hle, hne, hr⟩

end Report

end ComponentIdentity
