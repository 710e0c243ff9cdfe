/-
  File:      Osclan/Proofs/CutFronts.lean
  Subject:   What stands in front of a place where a text is cut.

  It is cut into tokens on its own, though not always into the same ones: a reserved text that ran
  into a name counts where the text ends behind it. Such a text then takes all that is left, and it
  is the only one there, since no reserved text begins another one.

  * `standsAt_unique`, `reserved?_eq_some_iff` -- one reserved text at a place;
  * `taken?_front` -- the head of a text without what stands behind a later place;
  * `CutAt.lexes` -- what stands in front of a place is cut into tokens.
-/
import Osclan.Proofs.Spelling

namespace Osclan

/-! ## 1. One reserved text at a place -/

/-- No reserved text begins another one. -/
theorem reserved_eq_of_begins : ∀ r ∈ reservedWords, ∀ r' ∈ reservedWords,
    r.text.toList.isPrefixOf r'.text.toList = true → r = r' := by
  decide +kernel

theorem eq_take_of_beginsWith {word input : List Char} (h : Text.beginsWith word input = true) :
    word <+: input.map Text.lower := by
  have he := map_lower_of_beginsWith h
  rw [List.map_take] at he
  rw [← he]
  exact List.take_prefix _ _

/-- Of two reserved texts at the head of the same characters, each is the other one. -/
theorem standsAt_unique {r r' : Reserved} (hr : r ∈ reservedWords) (hr' : r' ∈ reservedWords)
    {cs : List Char} (h : r.standsAt cs = true) (h' : r'.standsAt cs = true) : r = r' := by
  have hp := eq_take_of_beginsWith ((Bool.and_eq_true _ _).mp h).1
  have hp' := eq_take_of_beginsWith ((Bool.and_eq_true _ _).mp h').1
  rcases List.prefix_or_prefix_of_prefix hp hp' with hle | hle
  · exact reserved_eq_of_begins r hr r' hr' (List.isPrefixOf_iff_prefix.mpr hle)
  · exact (reserved_eq_of_begins r' hr' r hr (List.isPrefixOf_iff_prefix.mpr hle)).symm

/-- **A reserved text that stands at the head of the characters is the one found there.** -/
theorem reserved?_eq_some_iff {cs : List Char} {row : Reserved} :
    reserved? cs = some row ↔ row ∈ reservedWords ∧ row.standsAt cs = true := by
  constructor
  · exact reserved?_eq_some
  · rintro ⟨hrow, hs⟩
    cases hr : reserved? cs with
    | none =>
      unfold reserved? at hr
      exact absurd hs (List.find?_eq_none.mp hr row hrow)
    | some r =>
      obtain ⟨hr, hs'⟩ := reserved?_eq_some hr
      rw [standsAt_unique hr hrow hs' hs]

/-! ## 2. What stands in front of a place -/

section

variable {c : Char} {cs lexeme front rest : List Char}

theorem Run.of_append {p : Char → Bool} {run : List Char} (h : Run p run (front ++ rest)) :
    Run p run front := by
  refine ⟨h.all, ?_⟩
  cases front with
  | nil => rfl
  | cons d front => exact h.ends

theorem Opens.of_append (h : Opens c (cs ++ rest)) : Opens c cs := by
  refine ⟨h.notBlank, fun hc => h.notComment ⟨hc.1, ?_⟩, h.notQuote⟩
  rw [List.head?_append, hc.2]
  rfl

theorem beginsWith_of_append : ∀ {word input : List Char}, word.length ≤ input.length →
    Text.beginsWith word (input ++ rest) = Text.beginsWith word input
  | [], _, _ => rfl
  | w :: word, [], h => by cases h
  | w :: word, d :: input, h => by
    rw [List.cons_append, Text.beginsWith, Text.beginsWith,
      beginsWith_of_append (Nat.le_of_succ_le_succ h)]

/-- A reserved text stands in front of a place too, if it ends there at the latest. -/
theorem standsAt_of_append {row : Reserved} (hle : row.text.length ≤ cs.length)
    (h : row.standsAt (cs ++ rest) = true) : row.standsAt cs = true := by
  unfold Reserved.standsAt at h ⊢
  rw [beginsWith_of_append (by rwa [String.length_toList]), List.drop_append_of_le_length hle] at h
  obtain ⟨hb, hn⟩ := (Bool.and_eq_true _ _).mp h
  rw [hb, Bool.true_and]
  cases hd : cs.drop row.text.length with
  | nil => exact Bool.or_true _
  | cons d ds =>
    rw [hd] at hn
    exact hn

/-- A reserved text that stands at the head of the characters only without what follows them takes
    them all. -/
theorem length_eq_of_standsAt {row : Reserved} (h : row.standsAt cs = true)
    (hn : row.standsAt (cs ++ rest) ≠ true) : row.text.length = cs.length := by
  obtain ⟨hb, hnext⟩ := (Bool.and_eq_true _ _).mp h
  have hle := length_le_of_beginsWith hb
  rw [String.length_toList] at hle
  refine Nat.le_antisymm hle (Nat.le_of_not_lt fun hlt => hn ?_)
  unfold Reserved.standsAt
  rw [beginsWith_append rest hb, Bool.true_and, List.drop_append_of_le_length hle]
  cases hd : cs.drop row.text.length with
  | nil => exact absurd (List.drop_eq_nil_iff.mp hd) (Nat.not_le_of_lt hlt)
  | cons d ds =>
    rw [hd] at hnext
    exact hnext

/-- Where no reserved text stands, one can stand without what follows only if it takes all that is
    left. -/
theorem taken?_of_new_reserved (ho : Opens c cs) (hr : reserved? (c :: (cs ++ rest)) = none)
    (hn : reserved? (c :: cs) ≠ none) : (head c cs).taken? = some cs.length := by
  obtain ⟨row, hrow⟩ := Option.ne_none_iff_exists'.mp hn
  obtain ⟨hmem, hs⟩ := reserved?_eq_some_iff.mp hrow
  unfold reserved? at hr
  have hlen := length_eq_of_standsAt hs (List.find?_eq_none.mp hr row hmem)
  rw [head_eq (.reserved ho hrow), Head.taken?, hlen]
  rfl

/-- **The head of a text without what stands behind a later place**: it takes the same characters,
    or all that are left. -/
theorem taken?_front (h : (head c (lexeme ++ (front ++ rest))).taken? = some lexeme.length) :
    (head c (lexeme ++ front)).taken? = some lexeme.length ∨
      (head c (lexeme ++ front)).taken? = some (lexeme ++ front).length := by
  have hi := head_is c (lexeme ++ (front ++ rest))
  rw [← List.append_assoc] at hi h
  -- a name and a symbol are the two that a reserved text may take the place of, once it no longer
  -- runs into what stood behind it
  generalize hfull : lexeme ++ front ++ rest = full at hi h
  generalize head c full = hd at hi h
  cases hi with
  | blank hb =>
    obtain rfl := List.length_eq_zero_iff.mp (Option.some.inj h).symm
    rw [head_eq (.blank hb)]
    exact .inl rfl
  | @comment body after hrun =>
    rw [List.append_assoc, ← List.cons_append] at hfull
    obtain ⟨rfl, rfl⟩ := List.append_inj hfull (Option.some.inj h).symm
    rw [List.cons_append, head_eq (.comment hrun.of_append)]
    exact .inl rfl
  | @text body after hq =>
    rw [List.append_assoc, List.append_cons] at hfull
    have hlen : lexeme.length = (body ++ ['"']).length := by
      rw [List.length_append]
      exact (Option.some.inj h).symm
    obtain ⟨rfl, rfl⟩ := List.append_inj hfull hlen
    rw [← List.append_cons, head_eq (.text hq)]
    exact .inl h
  | openText => cases h
  | @reserved _ _ row ho hr =>
    subst hfull
    obtain ⟨hrow, hs⟩ := reserved?_eq_some_iff.mp hr
    have hlen : row.text.length - 1 = lexeme.length := Option.some.inj h
    have hle : row.text.length ≤ (c :: (lexeme ++ front)).length := by
      rw [List.length_cons, List.length_append]
      omega
    have hs' : row.standsAt (c :: (lexeme ++ front)) = true := standsAt_of_append hle hs
    rw [head_eq (.reserved ho.of_append (reserved?_eq_some_iff.mpr ⟨hrow, hs'⟩))]
    exact .inl h
  | @ident _ tail after ho hr ha hrun =>
    rw [← hfull] at ho hr
    by_cases hn : reserved? (c :: (lexeme ++ front)) = none
    · rw [List.append_assoc] at hfull
      obtain ⟨rfl, rfl⟩ := List.append_inj hfull (Option.some.inj h).symm
      rw [head_eq (.ident ho.of_append hn ha hrun.of_append)]
      exact .inl rfl
    · exact .inr (taken?_of_new_reserved ho.of_append hr hn)
  | @number _ tail after ho hr ha hd hrun =>
    rw [← hfull] at ho
    rw [List.append_assoc] at hfull
    obtain ⟨rfl, rfl⟩ := List.append_inj hfull (Option.some.inj h).symm
    rw [head_eq (.number ho.of_append (reserved?_digit hd) ha hd hrun.of_append)]
    exact .inl rfl
  | symbol ho hr ha hd hs =>
    subst hfull
    by_cases hn : reserved? (c :: (lexeme ++ front)) = none
    · rw [head_eq (.symbol ho.of_append hn ha hd hs)]
      exact .inl h
    · exact .inr (taken?_of_new_reserved ho.of_append hr hn)
  | foreign => cases h

/-- **What stands in front of a place is cut into tokens on its own.** -/
theorem CutAt.lexes (h : CutAt front rest) (pos : Position) : ∃ ts, lex pos front = .ok ts := by
  induction h generalizing pos with
  | here => exact ⟨_, lex_nil pos⟩
  | @behind c lexeme front rest hh _ ih =>
    rcases taken?_front hh with ht | ht
    · obtain ⟨us, hus⟩ := ih (pos.after (c :: lexeme))
      exact ⟨_, (lex_cut_ok ht).mpr ⟨us, hus, rfl⟩⟩
    · have hall : (head c ((lexeme ++ front) ++ [])).taken? = some (lexeme ++ front).length := by
        rwa [List.append_nil]
      have hok := (lex_cut_ok hall).mpr ⟨_, lex_nil (pos.after (c :: (lexeme ++ front))), rfl⟩
      rw [List.append_nil] at hok
      exact ⟨_, hok⟩

end

end Osclan
