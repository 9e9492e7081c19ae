import ComponentIdentity.Pipeline

/-! # Seeds and names

What a deterministic identifier is made from can be read off again: the text of
an identifier gives its bytes, the name in eight bytes gives the number, and the
seed gives the size of the index, whatever the keys before it look like.
-/

namespace ComponentIdentity

namespace Bytes

theorem ofText_inj {s t : String} (h : ofText s = ofText t) : s = t := by
  have hs := toText?_ofText s
  rw [h, toText?_ofText] at hs
  exact (Option.some.inj hs).symm

theorem hexDigit_inj : ∀ i < 16, ∀ j < 16, hexDigit i = hexDigit j → i = j := by decide

theorem hexDigit_ne_dash : ∀ i < 16, hexDigit i ≠ '-' := by decide

theorem hexByte_inj {a b : UInt8} (h : hexByte a = hexByte b) : a = b := by
  have ha := a.toNat_lt
  have hb := b.toNat_lt
  simp only [hexByte, List.cons.injEq, and_true] at h
  have hhigh := hexDigit_inj _ (by omega) _ (by omega) h.1
  have hlow := hexDigit_inj _ (by omega) _ (by omega) h.2
  exact UInt8.toNat_inj.mp (by omega)

theorem dash_not_mem_hexByte {b : UInt8} : '-' ∉ hexByte b := by
  have hb := b.toNat_lt
  simp only [hexByte, List.mem_cons, List.not_mem_nil, or_false, not_or]
  exact ⟨(hexDigit_ne_dash _ (by omega)).symm, (hexDigit_ne_dash _ (by omega)).symm⟩

theorem flatMap_hexByte_inj {a b : Bytes} (h : a.flatMap hexByte = b.flatMap hexByte) :
    a = b := by
  induction a generalizing b with
  | nil =>
    cases b with
    | nil => rfl
    | cons y b => simp [hexByte] at h
  | cons x a ih =>
    cases b with
    | nil => simp [hexByte] at h
    | cons y b =>
      obtain ⟨hx, hr⟩ := List.append_inj h rfl
      rw [hexByte_inj hx, ih hr]

theorem toUInt8_inj {n n' : Nat} (h : n.toUInt8 = n'.toUInt8) : n % 256 = n' % 256 := by
  have := congrArg UInt8.toNat h
  simpa using this

theorem ofNat64_inj {n n' : Nat} (hn : n < UInt64.size) (hn' : n' < UInt64.size)
    (h : ofNat64 n = ofNat64 n') : n = n' := by
  -- From the highest byte on, the bytes give what is left when the lower ones are cut off.
  have hdiv : ∀ j ≤ 8, n / 2 ^ (8 * (8 - j)) = n' / 2 ^ (8 * (8 - j)) := by
    intro j hj
    induction j with
    | zero => exact (Nat.div_eq_of_lt hn).trans (Nat.div_eq_of_lt hn').symm
    | succ j ih =>
      have hlow := toUInt8_inj (List.map_eq_map_iff.mp h j (List.mem_range.mpr hj))
      have hhigh := ih (by omega)
      rw [show 8 * (8 - j) = 8 * (7 - j) + 8 by omega, Nat.pow_add, ← Nat.div_div_eq_div_mul,
        ← Nat.div_div_eq_div_mul] at hhigh
      rw [Nat.shiftRight_eq_div_pow, Nat.shiftRight_eq_div_pow] at hlow
      rw [show 8 - (j + 1) = 7 - j by omega]
      omega
  simpa using hdiv 8 (Nat.le_refl 8)

theorem filter_toHex (bytes : Bytes) :
    (toHex bytes).toList.filter (· ≠ '-') = bytes.flatMap hexByte := by
  rw [toHex, String.toList_ofList, List.filter_eq_self]
  intro c hc
  obtain ⟨b, -, hb⟩ := List.mem_flatMap.mp hc
  exact decide_eq_true (ne_of_mem_of_not_mem hb dash_not_mem_hexByte)

end Bytes

namespace Uuid

theorem append_groups {α : Type} {l : List α} (h : l.length = 16) :
    l.take 4 ++ ((l.drop 4).take 2 ++ ((l.drop 6).take 2 ++
      ((l.drop 8).take 2 ++ (l.drop 10).take 6))) = l := by
  have hd : ∀ i j, (l.drop i).take j ++ l.drop (i + j) = l.drop i := by
    intro i j
    rw [← List.drop_drop, List.take_append_drop]
  have hl : (l.drop 10).take 6 = l.drop 10 := List.take_of_length_le (by simp [h])
  rw [hl, hd 8 2, hd 6 2, hd 4 2]
  exact List.take_append_drop 4 l

theorem filter_toString (u : Uuid) :
    u.toString.toList.filter (· ≠ '-') = u.bytes.toList.flatMap Bytes.hexByte := by
  have hg := congrArg (List.flatMap Bytes.hexByte) (append_groups u.bytes.length_toList)
  simp only [List.flatMap_append, ← Bytes.filter_toHex] at hg
  rw [← Bytes.filter_toHex, ← hg]
  simp [toString]

theorem toString_inj {u v : Uuid} (h : u.toString = v.toString) : u = v := by
  have hu := filter_toString u
  rw [h, filter_toString] at hu
  have hb := Vector.toList_inj.mp (Bytes.flatMap_hexByte_inj hu)
  cases u
  cases v
  exact congrArg Uuid.mk hb.symm

end Uuid

theorem List.eq_of_append_cons_eq {α : Type} {a : α} {xs ys ds es : List α} (hd : a ∉ ds)
    (he : a ∉ es) (h : xs ++ [a] ++ ds = ys ++ [a] ++ es) : ds = es := by
  simp only [List.append_assoc, List.singleton_append] at h
  rcases List.append_eq_append_iff.mp h with ⟨zs, -, hz⟩ | ⟨zs, -, hz⟩
  · cases zs with
    | nil => exact (List.cons.inj hz).2
    | cons z zs => exact absurd ((List.cons.inj hz).2 ▸ by simp) hd
  · cases zs with
    | nil => exact (List.cons.inj hz).2.symm
    | cons z zs => exact absurd ((List.cons.inj hz).2 ▸ by simp) he

theorem colon_not_mem_toString {n : Nat} : ':' ∉ (toString n).toList := by
  rw [Nat.toString_eq_repr, Nat.toList_repr]
  intro h
  have := Nat.isDigit_of_mem_toDigits (by decide) (by decide) h
  cases this

theorem toString_nat_inj {n n' : Nat} (h : (toString n).toList = (toString n').toList) :
    n = n' := by
  rw [Nat.toString_eq_repr, Nat.toString_eq_repr, Nat.toList_repr, Nat.toList_repr] at h
  have := congrArg (fun digits => Nat.ofDigitChars 10 digits 0) h
  simpa using this

theorem Report.eq_of_seed_eq {report report' : Report} {n n' : Nat}
    (h : report.seed n = report'.seed n') : n = n' := by
  have hl := congrArg String.toList h
  simp only [seed, String.toList_append] at hl
  -- Keys and branches may have colons and digits, but the size is behind the last colon.
  exact toString_nat_inj
    (List.eq_of_append_cons_eq colon_not_mem_toString colon_not_mem_toString hl)

end ComponentIdentity
