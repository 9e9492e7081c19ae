import Mathlib.Data.Finset.Card
import Mathlib.Data.List.Induction
import ComponentIdentity.Index.Memory

/-! # What an index in memory has been told

An index in memory is told identifiers of keys, one after the other. It answers
with the last one of each key, and nothing else is left in it of what it was told
before: a replaced identifier leaves the set unless another key still has it.
-/

namespace ComponentIdentity.MemoryIndex

variable {index index' : MemoryIndex} {entries : List (String × String)} {e : String × String}
  {key key' uuid uuid' : String}

theorem mem_values_iff {table : Std.ExtTreeMap String String} {uuid : String} :
    uuid ∈ table.values ↔ ∃ key : String, table[key]? = some uuid := by
  have h : table.values = table.toList.map (·.2) := by
    change table.foldr (fun _ uuid l => uuid :: l) [] = _
    rw [Std.ExtTreeMap.foldr_eq_foldr_toList, List.map_eq_foldr]
  rw [h, List.mem_map]
  constructor
  · rintro ⟨⟨key, uuid⟩, hm, rfl⟩
    exact ⟨key, Std.ExtTreeMap.mem_toList_iff_getElem?_eq_some.mp hm⟩
  · rintro ⟨key, hk⟩
    exact ⟨(key, uuid), Std.ExtTreeMap.mem_toList_iff_getElem?_eq_some.mpr hk, rfl⟩

@[simp]
theorem uuidForKey_empty : empty.uuidForKey key = none := by
  simp [empty, uuidForKey]

@[simp]
theorem containsUuid_empty : empty.containsUuid uuid = false := by
  simp [empty, containsUuid]

@[simp]
theorem uuidForKey_insert :
    (index.insert key uuid).uuidForKey key' =
      if key = key' then some uuid else index.uuidForKey key' := by
  simp [insert, uuidForKey, Std.ExtTreeMap.getElem?_insert]

theorem containsUuid_insert :
    (index.insert key uuid).containsUuid uuid' = true ↔
      uuid = uuid' ∨ index.containsUuid uuid' = true ∧
        (index.uuidForKey key = some uuid' →
          ∃ other, (index.insert key uuid).uuidForKey other = some uuid') := by
  have hv : uuid' ∈ (index.uuidsByKey.insert key uuid).values ↔
      ∃ other, (index.insert key uuid).uuidForKey other = some uuid' := mem_values_iff
  rw [← hv, insert]
  simp only [containsUuid, Std.ExtTreeSet.contains_insert, Bool.or_eq_true, beq_iff_eq,
    Std.LawfulEqCmp.compare_eq_iff_eq]
  refine or_congr_right' fun hne => ?_
  have hk : index.uuidsByKey[key]? = index.uuidForKey key := rfl
  rw [hk]
  rcases index.uuidForKey key with _ | previous
  · simp
  · simp only [Option.some.injEq]
    split
    next he =>
      rw [Std.ExtTreeSet.contains_erase]
      by_cases hp : previous = uuid'
      · subst hp; simp [he.2]
      · simp [hp]
    next he =>
      refine (and_iff_left fun hp => ?_).symm
      subst hp
      exact not_not.mp fun hn => he ⟨Ne.symm hne, hn⟩

/-- The set has exactly the identifiers of the keys. -/
def Faithful (index : MemoryIndex) : Prop :=
  ∀ uuid, index.containsUuid uuid = true ↔ ∃ key, index.uuidForKey key = some uuid

theorem faithful_empty : Faithful empty := by
  simp [Faithful]

theorem Faithful.insert (h : index.Faithful) : (index.insert key uuid).Faithful := by
  intro uuid'
  rw [containsUuid_insert, h]
  constructor
  · rintro (rfl | ⟨⟨k, hk⟩, hr⟩)
    · exact ⟨key, by simp⟩
    · by_cases he : key = k
      · exact hr (he ▸ hk)
      · exact ⟨k, by simp [he, hk]⟩
  · rintro ⟨k, hk⟩
    have hk' := hk
    rw [uuidForKey_insert] at hk'
    split at hk'
    · exact .inl (Option.some.inj hk')
    · exact .inr ⟨⟨k, hk'⟩, fun _ => ⟨k, hk⟩⟩

theorem faithful_ofList (entries : List (String × String)) : (ofList entries).Faithful :=
  List.foldlRecOn entries _ faithful_empty fun _ h _ _ => h.insert

theorem Faithful.eq_of_uuidForKey_eq (h : index.Faithful) (h' : index'.Faithful)
    (he : index.uuidForKey = index'.uuidForKey) : index = index' := by
  have hk : index.uuidsByKey = index'.uuidsByKey :=
    Std.ExtTreeMap.ext_getElem? fun {key} => congrFun he key
  have hu : index.uuids = index'.uuids := by
    refine Std.ExtTreeSet.ext_contains fun {uuid} => ?_
    rw [Bool.eq_iff_iff, ← containsUuid, ← containsUuid, h, h', he]
  cases index
  cases index'
  simp_all

/-- The last of the entries for the key has this identifier. -/
def IsLast (entries : List (String × String)) (key uuid : String) : Prop :=
  ∃ before after, entries = before ++ (key, uuid) :: after ∧ key ∉ after.map (·.1)

theorem not_isLast_nil : ¬ IsLast [] key uuid := by
  rintro ⟨before, after, he, -⟩
  simp at he

theorem isLast_concat_iff : IsLast (entries ++ [e]) key uuid ↔
    e = (key, uuid) ∨ e.1 ≠ key ∧ IsLast entries key uuid := by
  constructor
  · rintro ⟨before, after, he, hn⟩
    rcases List.eq_nil_or_concat after with rfl | ⟨after, e', rfl⟩
    · exact .inl (List.singleton_inj.mp (List.append_inj' he rfl).2)
    · rw [List.concat_eq_append, ← List.cons_append, ← List.append_assoc] at he
      obtain ⟨rfl, hlast⟩ := List.append_inj' he rfl
      obtain rfl := List.singleton_inj.mp hlast
      simp only [List.concat_eq_append, List.map_append, List.map_singleton, List.mem_append,
        List.mem_singleton, not_or] at hn
      exact .inr ⟨Ne.symm hn.2, before, after, rfl, hn.1⟩
  · rintro (rfl | ⟨hne, before, after, rfl, hn⟩)
    · exact ⟨entries, [], rfl, by simp⟩
    · exact ⟨before, after ++ [e], by simp, by simpa [hn] using Ne.symm hne⟩

theorem ofList_concat : ofList (entries ++ [e]) = (ofList entries).insert e.1 e.2 := by
  rw [ofList, List.foldl_append]
  rfl

theorem uuidForKey_ofList_iff :
    (ofList entries).uuidForKey key = some uuid ↔ IsLast entries key uuid := by
  induction entries using List.reverseRecOn with
  | nil =>
    refine ⟨fun h => ?_, fun h => absurd h not_isLast_nil⟩
    rw [ofList, List.foldl_nil, uuidForKey_empty] at h
    cases h
  | append_singleton entries e ih =>
    rw [ofList_concat, uuidForKey_insert, isLast_concat_iff, ← ih]
    by_cases hk : e.1 = key
    · rw [if_pos hk, Option.some.injEq, Prod.ext_iff, and_iff_right hk]
      exact (or_iff_left fun h => h.1 hk).symm
    · rw [if_neg hk, and_iff_right hk]
      exact (or_iff_right fun h => hk (congrArg Prod.fst h)).symm

theorem mem_uuidsByKey_ofList_iff :
    key ∈ (ofList entries).uuidsByKey ↔ key ∈ entries.map (·.1) := by
  induction entries using List.reverseRecOn with
  | nil => simp [ofList, empty]
  | append_singleton entries e ih =>
    rw [ofList_concat, insert, Std.ExtTreeMap.mem_insert, Std.LawfulEqCmp.compare_eq_iff_eq, ih,
      List.map_append, List.map_singleton, List.mem_append, List.mem_singleton, or_comm, eq_comm]

theorem size_ofList : (ofList entries).size = (entries.map (·.1)).toFinset.card := by
  have hkeys : (ofList entries).uuidsByKey.keys.toFinset = (entries.map (·.1)).toFinset := by
    ext key
    rw [List.mem_toFinset, List.mem_toFinset, Std.ExtTreeMap.mem_keys, mem_uuidsByKey_ofList_iff]
  rw [← hkeys, List.toFinset_card_of_nodup Std.ExtTreeMap.nodup_keys, Std.ExtTreeMap.length_keys]
  rfl

/-- Every key has what it was told last, and the identifiers in the index are those that some key
has. The size counts the keys, however often they were told anything, and two indexes are equal
exactly if they answer alike, however they came to do so. -/
theorem ofList_answers_last (entries : List (String × String)) :
    (∀ key uuid, (ofList entries).uuidForKey key = some uuid ↔ IsLast entries key uuid) ∧
      (∀ uuid, (ofList entries).containsUuid uuid = true ↔
        ∃ key, (ofList entries).uuidForKey key = some uuid) ∧
      (ofList entries).size = (entries.map (·.1)).toFinset.card ∧
      ∀ entries', ofList entries = ofList entries' ↔
        ∀ key, (ofList entries).uuidForKey key = (ofList entries').uuidForKey key := by
  refine ⟨fun _ _ => uuidForKey_ofList_iff, faithful_ofList entries, size_ofList, fun entries' => ?_⟩
  constructor
  · intro h key
    rw [h]
  · intro h
    exact (faithful_ofList entries).eq_of_uuidForKey_eq (faithful_ofList entries') (funext h)

/-- An identifier stays as long as some key has it. -/
example : (ofList [("P", "u"), ("Q", "u"), ("P", "v")]).uuids.toList = ["u", "v"] ∧
    (ofList [("P", "u"), ("Q", "u"), ("P", "v"), ("Q", "v")]).uuids.toList = ["v"] := by
  decide +kernel

end ComponentIdentity.MemoryIndex
