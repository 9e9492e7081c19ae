import ComponentIdentity.Proofs.Binary
import ComponentIdentity.Proofs.Seeds

/-! # Payloads that say where they end

Whatever follows a payload, its bytes tell its fields and where it ends. So no part
of a written report reads as a report, and no written report begins another one.
The widths of numbers play no part in this, so fields are spelled here without them.
-/

namespace ComponentIdentity

namespace Payload

variable {α : Type} {spelled spelled' : α → Bytes → Prop} {write : α → Bytes}

/-- Spellings that begin the same bytes are of one value and end at the same byte. -/
def Delimited (spelled : α → Bytes → Prop) : Prop :=
  ∀ ⦃a b : α⦄ ⦃front front' rest rest' : Bytes⦄, spelled a front → spelled b front' →
    front ++ rest = front' ++ rest' → a = b ∧ rest = rest'

def LooseText (s : String) (bytes : Bytes) : Prop :=
  ∃ size, Varint.Digits (Bytes.ofText s).length size ∧ bytes = size ++ Bytes.ofText s

def LooseList (spelled : α → Bytes → Prop) (as : List α) (bytes : Bytes) : Prop :=
  ∃ count items, Varint.Digits as.length count ∧ SpelledMany spelled as items ∧
    bytes = count ++ items

def LooseRef (r : Ref) (bytes : Bytes) : Prop := Varint.Digits r.toNat bytes

def LooseMetadata (m : Metadata) (bytes : Bytes) : Prop :=
  ∃ root branch, LooseRef m.root root ∧ SpelledOption LooseText m.branch branch ∧
    bytes = root ++ branch

def LooseComponent (c : Component) (bytes : Bytes) : Prop :=
  ∃ ref kind key path children, LooseRef c.ref ref ∧ Varint.Digits c.kind.rank kind ∧
    SpelledOption LooseText c.key key ∧ SpelledOption LooseText c.path path ∧
    LooseList LooseRef c.children children ∧ bytes = ref ++ kind ++ key ++ path ++ children

def LooseFields (m : Metadata) (cs : List Component) (bytes : Bytes) : Prop :=
  ∃ front back, LooseMetadata m front ∧ LooseList LooseComponent cs back ∧ bytes = front ++ back

section Delimited

theorem delimited_digits : Delimited Varint.Digits := by
  intro n k front front' rest rest' h h' he
  -- A marked byte says that more follow and an unmarked one that none do, so both end together.
  induction h generalizing k front' with
  | last hb =>
    cases h' with
    | last _ =>
      cases he
      exact ⟨rfl, rfl⟩
    | more hb' _ =>
      cases he
      omega
  | more hb _ ih =>
    cases h' with
    | last hb' =>
      cases he
      omega
    | more _ hd =>
      obtain ⟨rfl, ht⟩ := List.cons.inj he
      obtain ⟨rfl, rfl⟩ := ih hd ht
      exact ⟨rfl, rfl⟩

theorem delimited_ref : Delimited LooseRef := by
  intro r s front front' rest rest' h h' he
  obtain ⟨hn, ht⟩ := delimited_digits h h' he
  exact ⟨UInt32.toNat_inj.mp hn, ht⟩

theorem delimited_text : Delimited LooseText := by
  rintro s t _ _ rest rest' ⟨size, hs, rfl⟩ ⟨size', hs', rfl⟩ he
  simp only [List.append_assoc] at he
  obtain ⟨hl, he⟩ := delimited_digits hs hs' he
  obtain ⟨ht, he⟩ := List.append_inj he hl
  exact ⟨Bytes.ofText_inj ht, he⟩

theorem Delimited.option (h : Delimited spelled) : Delimited (SpelledOption spelled) := by
  rintro a b _ _ rest rest' ho ho' he
  cases ho with
  | none =>
    cases ho' with
    | none =>
      cases he
      exact ⟨rfl, rfl⟩
    | some _ => cases he
  | some ha =>
    cases ho' with
    | none => cases he
    | some hb =>
      obtain ⟨-, ht⟩ := List.cons.inj he
      obtain ⟨rfl, rfl⟩ := h ha hb ht
      exact ⟨rfl, rfl⟩

theorem Delimited.many (h : Delimited spelled) {as bs : List α} {front front' rest rest' : Bytes}
    (ha : SpelledMany spelled as front) (hb : SpelledMany spelled bs front')
    (hl : as.length = bs.length) (he : front ++ rest = front' ++ rest') :
    as = bs ∧ rest = rest' := by
  induction ha generalizing bs front' with
  | nil =>
    cases hb with
    | nil => exact ⟨rfl, he⟩
    | cons _ _ => cases hl
  | cons ha _ ih =>
    cases hb with
    | nil => cases hl
    | cons hb hbs =>
      simp only [List.append_assoc] at he
      obtain ⟨rfl, he⟩ := h ha hb he
      obtain ⟨rfl, rfl⟩ := ih hbs (Nat.succ.inj hl) he
      exact ⟨rfl, rfl⟩

theorem Delimited.list (h : Delimited spelled) : Delimited (LooseList spelled) := by
  rintro as bs _ _ rest rest' ⟨count, items, hc, hs, rfl⟩ ⟨count', items', hc', hs', rfl⟩ he
  simp only [List.append_assoc] at he
  obtain ⟨hl, he⟩ := delimited_digits hc hc' he
  exact h.many hs hs' hl he

theorem delimited_metadata : Delimited LooseMetadata := by
  rintro ⟨root, branch⟩ ⟨root', branch'⟩ _ _ rest rest' ⟨_, _, hr, hb, rfl⟩ ⟨_, _, hr', hb', rfl⟩ he
  simp only [List.append_assoc] at he
  obtain ⟨rfl, he⟩ := delimited_ref hr hr' he
  obtain ⟨rfl, rfl⟩ := delimited_text.option hb hb' he
  exact ⟨rfl, rfl⟩

theorem rank_inj {k k' : Kind} (h : k.rank = k'.rank) : k = k' :=
  Option.some.inj (by rw [← Kind.ofRank?_rank k, h, Kind.ofRank?_rank])

theorem delimited_component : Delimited LooseComponent := by
  rintro ⟨ref, kind, key, path, children⟩ ⟨ref', kind', key', path', children'⟩ _ _ rest rest'
    ⟨_, _, _, _, _, h₁, h₂, h₃, h₄, h₅, rfl⟩ ⟨_, _, _, _, _, h₁', h₂', h₃', h₄', h₅', rfl⟩ he
  simp only [List.append_assoc] at he
  obtain ⟨rfl, he⟩ := delimited_ref h₁ h₁' he
  obtain ⟨hk, he⟩ := delimited_digits h₂ h₂' he
  obtain rfl := rank_inj hk
  obtain ⟨rfl, he⟩ := delimited_text.option h₃ h₃' he
  obtain ⟨rfl, he⟩ := delimited_text.option h₄ h₄' he
  obtain ⟨rfl, rfl⟩ := delimited_ref.list h₅ h₅' he
  exact ⟨rfl, rfl⟩

theorem delimited_fields {m m' : Metadata} {cs cs' : List Component}
    {front front' rest rest' : Bytes} (h : LooseFields m cs front) (h' : LooseFields m' cs' front')
    (he : front ++ rest = front' ++ rest') : m = m' ∧ cs = cs' ∧ rest = rest' := by
  obtain ⟨_, _, hm, hc, rfl⟩ := h
  obtain ⟨_, _, hm', hc', rfl⟩ := h'
  simp only [List.append_assoc] at he
  obtain ⟨rfl, he⟩ := delimited_metadata hm hm' he
  exact ⟨rfl, delimited_component.list hc hc' he⟩

end Delimited

section Spelled

theorem SpelledOption.imp (h : ∀ a bytes, spelled a bytes → spelled' a bytes) {o : Option α}
    {bytes : Bytes} (ho : SpelledOption spelled o bytes) : SpelledOption spelled' o bytes := by
  cases ho with
  | none => exact .none
  | some ha => exact .some (h _ _ ha)

theorem SpelledMany.imp (h : ∀ a bytes, spelled a bytes → spelled' a bytes) {as : List α}
    {bytes : Bytes} (hs : SpelledMany spelled as bytes) : SpelledMany spelled' as bytes := by
  induction hs with
  | nil => exact .nil
  | cons ha _ ih => exact .cons (h _ _ ha) ih

theorem SpelledText.loose {s : String} {bytes : Bytes} (h : SpelledText s bytes) :
    LooseText s bytes := by
  obtain ⟨size, hs, rfl⟩ := h
  exact ⟨size, hs.digits, rfl⟩

theorem SpelledList.loose (h : ∀ a bytes, spelled a bytes → spelled' a bytes) {as : List α}
    {bytes : Bytes} (hs : SpelledList spelled as bytes) : LooseList spelled' as bytes := by
  obtain ⟨count, items, hc, hi, rfl⟩ := hs
  exact ⟨count, items, hc.digits, hi.imp h, rfl⟩

theorem SpelledComponent.loose {c : Component} {bytes : Bytes} (h : SpelledComponent c bytes) :
    LooseComponent c bytes := by
  obtain ⟨_, _, _, _, _, hr, hk, hkey, hpath, hc, rfl⟩ := h
  exact ⟨_, _, _, _, _, hr.digits, hk.digits, hkey.imp fun _ _ h => h.loose,
    hpath.imp fun _ _ h => h.loose, hc.loose fun _ _ hs => hs.digits, rfl⟩

theorem SpelledFields.loose {m : Metadata} {cs : List Component} {bytes : Bytes}
    (h : SpelledFields m cs bytes) : LooseFields m cs bytes := by
  obtain ⟨_, _, ⟨_, _, hr, hb, rfl⟩, hc, rfl⟩ := h
  exact ⟨_, _, ⟨_, _, hr.digits, hb.imp fun _ _ h => h.loose, rfl⟩,
    hc.loose fun _ _ h => h.loose, rfl⟩

end Spelled

section Write

theorem loose_writeRef (r : Ref) : LooseRef r (writeRef r) := Varint.digits_encode r.toNat

theorem loose_writeText (s : String) : LooseText s (writeText s) :=
  ⟨_, Varint.digits_encode _, rfl⟩

theorem loose_writeList (h : ∀ a, spelled a (write a)) (as : List α) :
    LooseList spelled as (writeList write as) :=
  ⟨_, _, Varint.digits_encode _, spelled_flatMap fun a _ => h a, rfl⟩

theorem loose_writeOption (o : Option String) :
    SpelledOption LooseText o (writeOption writeText o) :=
  spelled_writeOption fun s _ => loose_writeText s

theorem loose_writeComponent (c : Component) : LooseComponent c (writeComponent c) :=
  ⟨_, _, _, _, _, loose_writeRef _, Varint.digits_encode _, loose_writeOption _,
    loose_writeOption _, loose_writeList loose_writeRef _, rfl⟩

theorem loose_write (m : Metadata) (cs : List Component) :
    LooseFields m cs (writeMetadata m ++ writeList writeComponent cs) :=
  ⟨_, _, ⟨_, _, loose_writeRef _, loose_writeOption _, rfl⟩,
    loose_writeList loose_writeComponent _, rfl⟩

end Write

end Payload

namespace Report

variable {report other : Report} {m : Metadata} {cs : List Component} {bytes front tail : Bytes}

theorem toBytes_eq_append :
    report.toBytes = [0x43, 0x52, 0x45, 0x50, 1] ++
      (Payload.writeMetadata report.metadata ++
        Payload.writeList Payload.writeComponent report.toList) := by
  rw [toBytes, List.append_assoc]
  rfl

theorem Spelled.append (h : Spelled bytes m cs) : Spelled (bytes ++ tail) m cs := by
  obtain ⟨payload, rest, hs, rfl⟩ := h
  exact ⟨payload, rest ++ tail, hs, List.append_assoc _ _ _⟩

theorem eq_nil_of_decodeFields (h : decodeFields front = .ok (m, cs))
    (he : front ++ tail = report.toBytes) : tail = [] := by
  obtain ⟨payload, rest, hs, rfl⟩ := (decodeFields_eq_ok_iff (length_le_of_decodeFields h)).mp h
  rw [toBytes_eq_append, List.append_assoc, List.append_assoc, List.append_cancel_left_eq,
    ← List.append_nil (Payload.writeMetadata _ ++ _)] at he
  obtain ⟨-, -, hr⟩ := Payload.delimited_fields hs.loose (Payload.loose_write _ _) he
  exact (List.append_eq_nil_iff.mp hr).2

/-- A written report in front of another one is that report. -/
theorem eq_of_toBytes_append (he : other.toBytes ++ tail = report.toBytes) : other = report := by
  rw [toBytes_eq_append, toBytes_eq_append, List.append_assoc, List.append_cancel_left_eq,
    ← List.append_nil (Payload.writeMetadata report.metadata ++ _)] at he
  obtain ⟨hm, hc, -⟩ :=
    Payload.delimited_fields (Payload.loose_write _ _) (Payload.loose_write _ _) he
  have hother := other.declares_toList
  rw [hm, hc] at hother
  exact hother.ext report.declares_toList

/-- A report that is cut anywhere is refused before its components are looked at, and so no written
report begins another one; but bytes behind a report are ignored. -/
theorem toBytes_delimited (report : Report) :
    (∀ front, front <+: report.toBytes → front ≠ report.toBytes →
      ∃ fault, ofBytes front = .error (.serialization fault)) ∧
    (∀ other : Report, other.toBytes <+: report.toBytes → other = report) ∧
    ∀ tail, (report.toBytes ++ tail).length ≤ 256 * 1024 * 1024 →
      ofBytes (report.toBytes ++ tail) = .ok report := by
  refine ⟨?_, fun other ⟨tail, he⟩ => eq_of_toBytes_append he, ?_⟩
  · rintro front ⟨tail, he⟩ hne
    cases hd : decodeFields front with
    | error fault => exact ⟨fault, ofBytes_of_fault hd⟩
    | ok fields =>
      have ht : tail = [] := eq_nil_of_decodeFields hd he
      rw [ht, List.append_nil] at he
      exact absurd he hne
  · intro tail hl
    have hle : report.toBytes.length ≤ 256 * 1024 * 1024 := by
      rw [List.length_append] at hl
      omega
    exact (ofBytes_eq_ok_iff hl).mpr
      ⟨_, _, (spelled_toBytes hle).append, declarable_toList, declares_toList⟩

/-- A project with one file, but for the last byte. -/
def cutBytes : Bytes :=
  [0x43, 0x52, 0x45, 0x50, 1, 1, 0, 2, 1, 0, 1, 1, 0x50, 0, 1, 2, 2, 3, 0, 1, 2, 0xc3, 0xa9]

theorem toBytes_delimited_cutBytes : ∃ report,
    ofBytes (cutBytes ++ [0]) = .ok report ∧ report.toBytes = cutBytes ++ [0] ∧
      cutBytes <+: report.toBytes ∧ cutBytes ≠ report.toBytes ∧
      ∃ fault, ofBytes cutBytes = .error (.serialization fault) := by
  have hl : (ofBytes (cutBytes ++ [0])).toOption.map toBytes = some (cutBytes ++ [0]) := by
    decide +kernel
  cases hb : ofBytes (cutBytes ++ [0]) with
  | error e => rw [hb] at hl; cases hl
  | ok report =>
    rw [hb] at hl
    have he : report.toBytes = cutBytes ++ [0] := Option.some.inj hl
    have hp : cutBytes <+: report.toBytes := ⟨[0], he.symm⟩
    have hne : cutBytes ≠ report.toBytes := by rw [he]; decide
    exact ⟨report, rfl, he, hp, hne, (toBytes_delimited report).1 cutBytes hp hne⟩

end Report

end ComponentIdentity
