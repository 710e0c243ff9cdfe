/-
  File:      Osclan/Proofs/TableOrder.lean
  Subject:   The order of the reserved texts does not matter.

  The reserved texts are tried one after the other, and the first that stands at a place is taken.
  The lexer takes any table of them. No two rows of the table `reservedWords` stand at the same
  place, since no reserved text begins another one; so the first row that stands there is the only
  one, and it is found in whatever order the rows are tried.

  * `countP_standsAt_le_one` -- at most one row stands at a place;
  * `headWith_of_perm`, `lexWith_congr` -- another order, at the head of a text and in all of it;
  * `tokenizeWith_of_perm` -- the tokens of a source.
-/
import Mathlib.Data.List.Find
import Osclan.Proofs.CutFronts

namespace Osclan

/-! ## 1. One row at a place -/

theorem reservedWords_nodup : reservedWords.Nodup := by
  decide +kernel

/-- **At most one row stands at a place.** -/
theorem countP_standsAt_le_one (cs : List Char) : reservedWords.countP (·.standsAt cs) ≤ 1 := by
  have hnodup := reservedWords_nodup.filter (·.standsAt cs)
  have hmem : ∀ r ∈ reservedWords.filter (·.standsAt cs),
      r ∈ reservedWords ∧ r.standsAt cs = true := fun r hr => List.mem_filter.mp hr
  rw [List.countP_eq_length_filter]
  -- of two rows that stand here, each would be the other one
  cases hrows : reservedWords.filter (·.standsAt cs) with
  | nil => exact Nat.zero_le 1
  | cons r rows =>
    cases rows with
    | nil => exact Nat.le_refl 1
    | cons r' rows =>
      rw [hrows] at hnodup hmem
      obtain ⟨hr, hs⟩ := hmem r List.mem_cons_self
      obtain ⟨hr', hs'⟩ := hmem r' (List.mem_cons_of_mem _ List.mem_cons_self)
      rw [standsAt_unique hr hr' hs hs'] at hnodup
      exact absurd List.mem_cons_self (List.nodup_cons.mp hnodup).1

/-! ## 2. Another order -/

/-- The row found at a place is the same in every order. -/
theorem find?_of_perm {table : List Reserved} (h : table.Perm reservedWords) (cs : List Char) :
    table.find? (·.standsAt cs) = reserved? cs := by
  refine List.find?_eq_find?_of_perm h fun r hr r' hr' => ?_
  exact standsAt_unique (h.mem_iff.mp hr.1) (h.mem_iff.mp hr'.1) hr.2 hr'.2

/-- **The head of a text is the same in every order of the rows.** -/
theorem headWith_of_perm {table : List Reserved} (h : table.Perm reservedWords) (c : Char)
    (cs : List Char) : headWith table c cs = headWith reservedWords c cs := by
  unfold headWith
  rw [find?_of_perm h]
  rfl

/-- **Tables with the same heads give the same tokens**, and the same fault where there is one. -/
theorem lexWith_congr {table table' : List Reserved}
    (h : ∀ c cs, headWith table c cs = headWith table' c cs) (pos : Position) (cs : List Char) :
    lexWith table pos cs = lexWith table' pos cs := by
  fun_induction lexWith table pos cs with
  | case1 pos => rw [lexWith]
  | case2 pos c cs more hh ih =>
    rw [lexWith, ← h, hh]
    exact ih
  | case3 pos c cs kind value more hh ih => rw [lexWith, ← h, hh, ih]
  | case4 pos c cs hh => rw [lexWith, ← h, hh]
  | case5 pos c cs hh => rw [lexWith, ← h, hh]

/-- **The order of the reserved texts does not matter.** At every place of every source at most one
    row of the table stands, and with the rows in any order every source has the same tokens, or the
    same fault. -/
theorem tokenizeWith_of_perm :
    (∀ (source : String) (i : Nat),
      reservedWords.countP (·.standsAt (source.toList.drop i)) ≤ 1) ∧
    ∀ table : List Reserved, table.Perm reservedWords → ∀ file source : String,
      tokenizeWith table file source = tokenize file source := by
  refine ⟨fun source i => countP_standsAt_le_one _, fun table h file source => ?_⟩
  exact lexWith_congr (headWith_of_perm h) _ _

/-- The last row is tried first. A name begins like a reserved word, three colons are two tokens,
    and `~=` runs into a name. -/
theorem tokenizeWith_of_reversed :
    reservedWords.reverse.Perm reservedWords ∧
    reservedWords.countP (·.standsAt ("init-list INIT:::ok~=x".toList.drop 10)) ≤ 1 ∧
    tokenizeWith reservedWords.reverse "sample" "init-list INIT:::ok~=x" =
      .ok [⟨.ident, "init-list", ⟨"sample", 1, 1, 0⟩⟩, ⟨.init, "init", ⟨"sample", 1, 11, 10⟩⟩,
        ⟨.doubleColon, "::", ⟨"sample", 1, 15, 14⟩⟩, ⟨.colon, ":", ⟨"sample", 1, 17, 16⟩⟩,
        ⟨.number, "0", ⟨"sample", 1, 18, 17⟩⟩, ⟨.tilde, "~", ⟨"sample", 1, 20, 19⟩⟩,
        ⟨.equal, "=", ⟨"sample", 1, 21, 20⟩⟩, ⟨.ident, "x", ⟨"sample", 1, 22, 21⟩⟩,
        ⟨.eof, "", ⟨"sample", 1, 23, 22⟩⟩] := by
  obtain ⟨hone, horder⟩ := tokenizeWith_of_perm
  refine ⟨List.reverse_perm _, hone _ 10, ?_⟩
  rw [horder _ (List.reverse_perm _)]
  decide +kernel

/-- Where one text begins another, the order decides. -/
example :
    tokenizeWith [⟨":", .colon, ":", true⟩, ⟨"::", .doubleColon, "::", true⟩] "sample" "::" ≠
      tokenizeWith [⟨"::", .doubleColon, "::", true⟩, ⟨":", .colon, ":", true⟩] "sample" "::" := by
  decide +kernel

end Osclan
