/-
  File:      Osclan/Proofs/LeafSum.lean
  Subject:   The size of a type is the sum over its leaves.

  The size of a composite is summed in 64-bit words, level by level, and fails at the first sum that
  leaves the word. Here it is compared with the sum over the leaves in the natural numbers, where
  nothing can fail.

  * `Ty.leafSum` -- the sum of the sizes of the leaves;
  * `word?` -- a natural number as a word, if it is one;
  * `size?_eq_word?` -- the size is the leaf sum as a word;
  * `size?_eq_none_iff`, `make?_eq_none_iff` -- it fails exactly where the leaf sum is no word.
-/
import Mathlib
import Osclan.Scope

namespace Osclan

/-! ## 1. Leaf sums -/

namespace Ty

mutual

/-- The sum of the sizes of the leaves of a type. A leaf is a type without fields; the sizes that
    composites carry do not count. -/
def leafSum : Ty → Nat
  | ⟨_, size, []⟩ => size.toNat
  | ⟨_, _, f :: fs⟩ => leafSums (f :: fs)

/-- The sum over the types of some fields. -/
def leafSums : List (String × Ty) → Nat
  | [] => 0
  | (_, t) :: rest => t.leafSum + leafSums rest

end

end Ty

/-- A number as a word, unless it is too large for one. -/
def word? (n : Nat) : Option UInt64 :=
  if n < Text.wordLimit then some (UInt64.ofNat n) else none

theorem word?_toNat (a : UInt64) : word? a.toNat = some a := by
  have hlt : a.toNat < Text.wordLimit := a.toNat_lt
  rw [word?, if_pos hlt, UInt64.ofNat_toNat]

theorem word?_eq_none_iff {n : Nat} : word? n = none ↔ 2 ^ 64 ≤ n := by
  unfold word? Text.wordLimit
  split
  · simp only [reduceCtorEq, false_iff]
    omega
  · simp only [true_iff]
    omega

theorem toNat_of_word? {n : Nat} {a : UInt64} (h : word? n = some a) : a.toNat = n := by
  unfold word? at h
  split at h
  next hlt =>
    cases h
    exact UInt64.toNat_ofNat_of_lt' hlt
  next => cases h

theorem addWords?_eq_word? (a b : UInt64) : Ty.addWords? a b = word? (a.toNat + b.toNat) := by
  unfold Ty.addWords? word?
  rw [UInt64.ofNat_add, UInt64.ofNat_toNat, UInt64.ofNat_toNat]

/-! ## 2. Sizes -/

/-- Adding on to a number that is no word gives none. -/
theorem word?_add_of_none {n : Nat} (h : word? n = none) (m : Nat) : word? (n + m) = none := by
  rw [word?_eq_none_iff] at h ⊢
  omega

mutual

/-- **Sizes.** The size of a type is its leaf sum, if that is a word; else there is none. -/
theorem size?_eq_word? : ∀ t : Ty, t.size? = word? t.leafSum
  | ⟨_, size, []⟩ => by
    rw [Ty.size?, Ty.leafSum, word?_toNat]
  | ⟨_, _, f :: fs⟩ => by
    rw [Ty.size?, Ty.leafSum, sumSizes_eq_word? 0 (f :: fs)]
    exact congrArg word? (Nat.zero_add _)

/-- The partial sums only grow, so the first that is no word settles the whole. -/
theorem sumSizes_eq_word? : ∀ (acc : UInt64) (fs : List (String × Ty)),
    Ty.sumSizes acc fs = word? (acc.toNat + Ty.leafSums fs)
  | acc, [] => (word?_toNat acc).symm
  | acc, (_, t) :: rest => by
    have hsize := size?_eq_word? t
    have hrest := fun acc => sumSizes_eq_word? acc rest
    simp only [Ty.sumSizes, Ty.leafSums, hsize, addWords?_eq_word?, ← Nat.add_assoc]
    cases ht : word? t.leafSum with
    | none =>
      have hacc : word? (acc.toNat + t.leafSum) = none := by
        rw [Nat.add_comm]
        exact word?_add_of_none ht _
      rw [word?_add_of_none hacc]
    | some size =>
      simp only [toNat_of_word? ht]
      cases hacc : word? (acc.toNat + t.leafSum) with
      | none => rw [word?_add_of_none hacc]
      | some sum => simp only [hrest, toNat_of_word? hacc]

end

theorem size?_eq_none_iff {t : Ty} : t.size? = none ↔ 2 ^ 64 ≤ t.leafSum := by
  rw [size?_eq_word?, word?_eq_none_iff]

/-- A leaf is a word by itself, so a type of too large a size is a composite. -/
theorem isComposite_of_oversized {t : Ty} (h : 2 ^ 64 ≤ t.leafSum) : t.isComposite = true := by
  obtain ⟨name, size, fields⟩ := t
  cases fields with
  | nil =>
    rw [Ty.leafSum] at h
    have hlt := size.toNat_lt
    omega
  | cons f fs => rfl

/-- A variable is made with the leaf sum of its type as its size. -/
theorem make?_eq_some {name : String} {type : Ty} {pointer : Bool} {v : Variable}
    (h : Variable.make? name type pointer = some v) :
    v.name = name ∧ v.type = type ∧ v.pointer = pointer ∧ v.size.toNat = type.leafSum := by
  unfold Variable.make? at h
  obtain ⟨size, hsize, rfl⟩ := Option.map_eq_some_iff.mp h
  rw [size?_eq_word?] at hsize
  exact ⟨rfl, rfl, rfl, toNat_of_word? hsize⟩

theorem make?_eq_none_iff {name : String} {type : Ty} {pointer : Bool} :
    Variable.make? name type pointer = none ↔ 2 ^ 64 ≤ type.leafSum := by
  unfold Variable.make?
  rw [Option.map_eq_none_iff, size?_eq_none_iff]

end Osclan
