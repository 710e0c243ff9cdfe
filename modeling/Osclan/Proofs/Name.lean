/-
  File:      Osclan/Proofs/Name.lean
  Subject:   Which names share a key, and which share a label.

  The key of a name in the scope tables and its assembler label are two texts, made by two rules.
  They still tell the same names apart: both replace hyphens by underscores, and the count in the
  key can be read back from the length of the key. So a table that holds no key twice stands for
  procedures with different labels.

  * `Name.mangle_eq_mangle_iff`, `Name.label_eq_label_iff` -- both come down to the replaced text;
  * `Name.mangle_eq_iff_label_eq` -- the same keys, the same labels;
  * `Name.label_eq_iff_of_plain` -- a label without hyphens or underscores has one name.
-/
import Osclan.Name

namespace Osclan.Name

/-! ## 1. The replaced text -/

theorem length_replaceChar (old new : Char) (cs : List Char) :
    (replaceChar old new cs).length = cs.length := List.length_map _

/-- Where the new character does not occur after it, the replacement has changed nothing. -/
theorem replaceChar_eq_of_not_mem {old new : Char} : ∀ {cs ds : List Char},
    replaceChar old new cs = ds → new ∉ ds → cs = ds
  | [], ds, h, _ => h
  | c :: cs, ds, h, hn => by
    rw [replaceChar, List.map_cons] at h
    subst h
    simp only [List.mem_cons, not_or] at hn
    have hc : ¬ c = old := by
      intro e
      rw [if_pos e] at hn
      exact hn.1 rfl
    rw [if_neg hc]
    exact congrArg (c :: ·) (replaceChar_eq_of_not_mem rfl hn.2)

theorem replaceChar_of_not_mem {old new : Char} {cs : List Char} (h : old ∉ cs) :
    replaceChar old new cs = cs := by
  have hid : ∀ c ∈ cs, (if c = old then new else c) = c := by
    intro c hc
    rw [if_neg]
    rintro rfl
    exact h hc
  exact (List.map_congr_left hid).trans (List.map_id' _)

theorem not_mem_replaceChar {old new : Char} (hne : old ≠ new) (cs : List Char) :
    old ∉ replaceChar old new cs := by
  intro hm
  obtain ⟨c, _, hc⟩ := List.mem_map.mp hm
  split at hc
  · exact hne hc.symm
  · rename_i hold
    exact hold hc

/-- Replacing back and again is replacing once. -/
theorem replaceChar_swap (a b : Char) (cs : List Char) :
    replaceChar a b (replaceChar b a cs) = replaceChar a b cs := by
  rw [replaceChar, replaceChar, List.map_map]
  refine List.map_congr_left fun c _ => ?_
  rw [Function.comp_apply]
  by_cases hb : c = b
  · rw [if_pos hb, if_pos rfl, hb, ite_self]
  · rw [if_neg hb]

/-! ## 2. The count of a key -/

theorem length_toDigits_mono {m n : Nat} (h : m ≤ n) :
    (Nat.toDigits 10 m).length ≤ (Nat.toDigits 10 n).length := by
  have hpos : 0 < (Nat.toDigits 10 n).length := Nat.length_toDigits_pos
  have hn : n < 10 ^ (Nat.toDigits 10 n).length :=
    (Nat.length_toDigits_le_iff (by decide) hpos).mp (Nat.le_refl _)
  exact (Nat.length_toDigits_le_iff (by decide) hpos).mpr (Nat.lt_of_le_of_lt h hn)

/-- Two counted texts are equal only if the counts are: the longer text has the longer count. -/
theorem counted_inj {cs ds : List Char}
    (h : Nat.toDigits 10 cs.length ++ cs = Nat.toDigits 10 ds.length ++ ds) : cs = ds := by
  have hl := congrArg List.length h
  simp only [List.length_append] at hl
  have hle : cs.length = ds.length := by
    rcases Nat.lt_trichotomy cs.length ds.length with hlt | heq | hgt
    · have := length_toDigits_mono (Nat.le_of_lt hlt)
      omega
    · exact heq
    · have := length_toDigits_mono (Nat.le_of_lt hgt)
      omega
  rw [hle] at h
  exact List.append_cancel_left h

/-! ## 3. Keys and labels -/

theorem toList_mangle (name : String) :
    (mangle name).toList = '_' :: 'O' :: (Nat.toDigits 10 name.toList.length ++
      replaceChar '-' '_' name.toList) := by
  simp only [mangle, String.toList_append, String.toList_ofList, Nat.toList_repr,
    String.length_toList]
  rfl

theorem toList_label (name : String) :
    (label name).toList = '_' :: replaceChar '-' '_' name.toList := by
  simp only [label, String.toList_append, String.toList_ofList]
  rfl

theorem mangle_eq_mangle_iff {a b : String} :
    mangle a = mangle b ↔ replaceChar '-' '_' a.toList = replaceChar '-' '_' b.toList := by
  rw [← String.toList_inj, toList_mangle, toList_mangle, List.cons.injEq, List.cons.injEq]
  simp only [true_and]
  constructor
  · intro h
    rw [← length_replaceChar '-' '_' a.toList, ← length_replaceChar '-' '_' b.toList] at h
    exact counted_inj h
  · intro h
    have hl : a.toList.length = b.toList.length := by
      rw [← length_replaceChar '-' '_' a.toList, h, length_replaceChar]
    rw [h, hl]

theorem label_eq_label_iff {a b : String} :
    label a = label b ↔ replaceChar '-' '_' a.toList = replaceChar '-' '_' b.toList := by
  rw [← String.toList_inj, toList_label, toList_label, List.cons.injEq]
  simp only [true_and]

/-- **Names share a key exactly if they share a label.** -/
theorem mangle_eq_iff_label_eq {a b : String} : mangle a = mangle b ↔ label a = label b :=
  mangle_eq_mangle_iff.trans label_eq_label_iff.symm

/-- A word without hyphens and underscores shares its label with no other name. -/
theorem label_eq_iff_of_plain {name word : String} (hh : '-' ∉ word.toList)
    (hu : '_' ∉ word.toList) : label name = label word ↔ name = word := by
  rw [label_eq_label_iff]
  have hw : replaceChar '-' '_' word.toList = word.toList := replaceChar_of_not_mem hh
  rw [hw]
  constructor
  · intro h
    exact String.toList_inj.mp (replaceChar_eq_of_not_mem h hu)
  · intro h
    rw [h, hw]

/-- So it is the label of one of some names exactly if it is one of them. -/
theorem mem_map_label_iff {word : String} {names : List String} (hh : '-' ∉ word.toList)
    (hu : '_' ∉ word.toList) : label word ∈ names.map label ↔ word ∈ names := by
  rw [List.mem_map]
  constructor
  · rintro ⟨name, hn, e⟩
    rwa [(label_eq_iff_of_plain hh hu).mp e] at hn
  · intro hn
    exact ⟨word, hn, rfl⟩

end Osclan.Name
