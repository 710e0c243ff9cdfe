/-
  File:      Osclan/Proofs/CompositeSize.lean
  Subject:   The size of a composite is the sum over its leaves, or there is none.

  Sizes are summed in 64-bit words level by level, so the sum could fail on the way although the
  total fits, or depend on the order of the fields. It does neither: what is summed are the sizes of
  the leaves, and no part of a sum of natural numbers is larger than the whole.

  * `Ty.leaves`, `Ty.total` -- the types without fields in a type, and the sum of their sizes;
  * `leafSum_eq_total` -- the sum by levels is the sum over the leaves;
  * `Ty.total_le_of_mem_parts` -- a type inside a type has the smaller total;
  * **`size?_sums_leaves`** -- sizes and totals.
-/
import Osclan.Proofs.LeafSum
import Osclan.Proofs.TypeTable

namespace Osclan

/-! ## 1. Leaves -/

namespace Ty

/-- The leaves of a type: of the type and the types inside it, those without fields. -/
def leaves (t : Ty) : List Ty := (t :: t.parts).filter fun part => !part.isComposite

/-- The sum of the sizes that the leaves of a type carry. -/
def total (t : Ty) : Nat := (t.leaves.map fun leaf => leaf.size.toNat).sum

/-- The same over the leaves in some fields. -/
def totalAll (fields : List (String × Ty)) : Nat :=
  (((partsAll fields).filter fun part => !part.isComposite).map fun leaf => leaf.size.toNat).sum

/-- A composite is no leaf of its own. -/
theorem total_of_cons (name : String) (size : UInt64) (f : String × Ty)
    (fs : List (String × Ty)) : total ⟨name, size, f :: fs⟩ = totalAll (f :: fs) := by
  rw [total, leaves, List.filter_cons_of_neg (by simp [isComposite]), parts, totalAll]

theorem totalAll_cons (key : String) (t : Ty) (rest : List (String × Ty)) :
    totalAll ((key, t) :: rest) = t.total + totalAll rest := by
  rw [totalAll, partsAll, ← List.cons_append, List.filter_append, List.map_append, List.sum_append]
  rfl

end Ty

mutual

/-- **The sum by levels is the sum over the leaves.** -/
theorem leafSum_eq_total : ∀ t : Ty, t.leafSum = t.total
  | ⟨name, size, []⟩ => rfl
  | ⟨name, size, f :: fs⟩ => by
    rw [Ty.leafSum, Ty.total_of_cons, leafSums_eq_totalAll (f :: fs)]

theorem leafSums_eq_totalAll : ∀ fields : List (String × Ty),
    Ty.leafSums fields = Ty.totalAll fields
  | [] => rfl
  | (key, t) :: rest => by
    rw [Ty.leafSums, Ty.totalAll_cons, leafSum_eq_total t, leafSums_eq_totalAll rest]

end

/-! ## 2. Types inside a type -/

mutual

/-- What is inside a part is inside the whole, and the part is inside before it. -/
theorem Ty.sublist_parts : ∀ t : Ty, ∀ part ∈ t.parts, (part :: part.parts).Sublist t.parts
  | ⟨_, _, fields⟩ => by
    rw [Ty.parts]
    exact Ty.sublist_partsAll fields

theorem Ty.sublist_partsAll : ∀ fields : List (String × Ty), ∀ part ∈ Ty.partsAll fields,
    (part :: part.parts).Sublist (Ty.partsAll fields)
  | [] => by
    rw [Ty.partsAll]
    exact List.forall_mem_nil _
  | (key, t) :: rest => by
    have ht := Ty.sublist_parts t
    have hrest := Ty.sublist_partsAll rest
    rw [Ty.partsAll, ← List.cons_append]
    refine List.forall_mem_append.mpr ⟨List.forall_mem_cons.mpr ⟨?_, ?_⟩, ?_⟩
    · exact List.sublist_append_left _ _
    · intro part hpart
      exact ((ht part hpart).cons t).trans (List.sublist_append_left _ _)
    · intro part hpart
      exact (hrest part hpart).trans (List.sublist_append_right _ _)

end

theorem Ty.total_le_of_mem_parts {t part : Ty} (h : part ∈ t.parts) : part.total ≤ t.total := by
  have hleaves : part.leaves.Sublist t.leaves :=
    ((Ty.sublist_parts t part h).cons t).filter _
  exact (hleaves.map _).sum_le_sum fun _ _ => Nat.zero_le _

/-! ## 3. The main result -/

/-- **The size of a type is the sum over its leaves.** If the sizes of the leaves have a sum of at
    most 2^64 - 1, that sum is the size of the type, whatever sizes the composites on the way carry,
    and no type inside the type is without a size. The size is missing exactly if the sum is 2^64 or
    more. And the order in which the leaves come does not matter. -/
theorem size?_sums_leaves (t : Ty) :
    (t.total ≤ 2 ^ 64 - 1 → (∃ size, t.size? = some size ∧ size.toNat = t.total) ∧
      ∀ part ∈ t.parts, part.size? ≠ none) ∧
    (t.size? = none ↔ 2 ^ 64 ≤ t.total) ∧
    ∀ t' : Ty, (t'.leaves.map Ty.size).Perm (t.leaves.map Ty.size) → t'.size? = t.size? := by
  have hsize : ∀ t : Ty, t.size? = word? t.total := by
    intro t
    rw [size?_eq_word?, leafSum_eq_total]
  have hnone : ∀ t : Ty, t.size? = none ↔ 2 ^ 64 ≤ t.total := by
    intro t
    rw [hsize, word?_eq_none_iff]
  refine ⟨fun hfits => ⟨?_, fun part hpart hover => ?_⟩, hnone t, fun t' hperm => ?_⟩
  · have hsome : t.size? ≠ none := by
      rw [ne_eq, hnone]
      omega
    obtain ⟨size, hs⟩ := Option.ne_none_iff_exists'.mp hsome
    exact ⟨size, hs, toNat_of_word? ((hsize t).symm.trans hs)⟩
  · have hle := Ty.total_le_of_mem_parts hpart
    rw [hnone] at hover
    omega
  · have htotal : t'.total = t.total := by
      have hsum := (hperm.map UInt64.toNat).sum_eq
      rwa [List.map_map, List.map_map] at hsum
    rw [hsize, hsize, htotal]

/-- A line from a point with a tag. The sizes 99 and 77 of the composites do not count. -/
def lineSample : Ty :=
  ⟨"Line", 99, [("_O4from", ⟨"Point", 77, [("_O1x", ⟨"int", 4, []⟩), ("_O1y", ⟨"int", 8, []⟩)]⟩),
    ("_O3tag", ⟨"string", 3, []⟩)]⟩

/-- The leaves of the line have the sizes 4, 8 and 3; with another leaf of 2^64 - 15 bytes there is
    one byte too many. -/
theorem size?_sums_leaves_of_line :
    lineSample.total = 15 ∧ lineSample.size? = some 15 ∧
      (∃ point ∈ lineSample.parts, point.isComposite = true ∧ point.size? ≠ none) ∧
      Ty.size? ⟨"Wide", 0, [("_O4line", lineSample),
        ("_O3pad", ⟨"int", 18446744073709551601, []⟩)]⟩ = none := by
  have htotal : lineSample.total = 15 := by decide
  obtain ⟨hfits, _, _⟩ := size?_sums_leaves lineSample
  obtain ⟨⟨size, hsize, hnat⟩, hparts⟩ := hfits (by rw [htotal]; decide)
  have h15 : size = 15 := UInt64.toNat_inj.mp (hnat.trans htotal)
  refine ⟨htotal, h15 ▸ hsize, ⟨_, List.mem_cons_self, rfl, hparts _ List.mem_cons_self⟩, ?_⟩
  exact (size?_sums_leaves _).2.1.mpr (by decide)

end Osclan
