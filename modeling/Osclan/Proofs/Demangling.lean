/-
  File:      Osclan/Proofs/Demangling.lean
  Subject:   Which name is read back from a key.

  A key is a mark, a count, and the name with its hyphens replaced. Nothing stands between the count
  and the name, so digits at the head of a name are read as part of the count. That makes the count
  too large for what is left, and the key is refused. Every other name comes back, with hyphens for
  its underscores.

  * `trimZeros`, `toDigits_ofDigitChars` -- writing a number that was read;
  * `demangle?_of_cut` -- what is read from a key, by where its count ends;
  * `demangle?_mangle_eq` -- what is read from the key of a name;
  * `mangle_of_demangle?` -- the key of a name that was read;
  * `readKey?` -- the same reader with the count as a 64-bit word;
  * **`mangle_reversible`** -- which names come back, and which keys are told apart.
-/
import Mathlib
import Osclan.Proofs.LeafSum
import Osclan.Proofs.Renaming

namespace Osclan.Name

/-! ## 1. Counts -/

/-- The digits of a count without the leading zeros. One digit is kept. -/
def trimZeros : List Char → List Char
  | d :: e :: rest => if d = '0' then trimZeros (e :: rest) else d :: e :: rest
  | ds => ds

/-- A digit is written as itself. -/
theorem toDigits_of_isDigit {d : Char} (h : d.isDigit = true) :
    Nat.toDigits 10 (d.toNat - '0'.toNat) = [d] := by
  obtain ⟨hlow, hhigh⟩ := toNat_of_isDigit h
  obtain ⟨m, hm⟩ : ∃ m, d.toNat = m := ⟨_, rfl⟩
  obtain rfl : Char.ofNat m = d := by rw [← hm, Char.ofNat_toNat]
  rw [hm] at hlow hhigh ⊢
  interval_cases m <;> rfl

/-- Digits that are read behind a number above zero are written behind it. -/
theorem toDigits_ofDigitChars_of_pos {ds : List Char} {n : Nat} (hn : 0 < n)
    (hall : ∀ d ∈ ds, d.isDigit = true) :
    Nat.toDigits 10 (Nat.ofDigitChars 10 ds n) = Nat.toDigits 10 n ++ ds := by
  induction ds generalizing n with
  | nil => rw [Nat.ofDigitChars_nil, List.append_nil]
  | cons d ds ih =>
    obtain ⟨hd, hds⟩ := List.forall_mem_cons.mp hall
    have hlt : d.toNat - '0'.toNat < 10 := by
      have hc := toNat_of_isDigit hd
      have hzero : '0'.toNat = 48 := rfl
      omega
    rw [Nat.ofDigitChars_cons, ih (by omega) hds,
      ← Nat.toDigits_append_toDigits (by decide) hn hlt, toDigits_of_isDigit hd, List.append_assoc]
    rfl

/-- **A number that was read is written without the leading zeros.** -/
theorem toDigits_ofDigitChars {ds : List Char} (hne : ds ≠ [])
    (hall : ∀ d ∈ ds, d.isDigit = true) :
    Nat.toDigits 10 (Nat.ofDigitChars 10 ds 0) = trimZeros ds := by
  induction ds with
  | nil => exact absurd rfl hne
  | cons d rest ih =>
    obtain ⟨hd, hrest⟩ := List.forall_mem_cons.mp hall
    rw [Nat.ofDigitChars_cons, Nat.mul_zero, Nat.zero_add]
    cases rest with
    | nil => exact toDigits_of_isDigit hd
    | cons e rest =>
      rw [trimZeros]
      by_cases hzero : d = '0'
      · subst hzero
        exact ih (List.cons_ne_nil e rest) hrest
      · have hpos : 0 < d.toNat - '0'.toNat := by
          have hc := toNat_of_isDigit hd
          have hdiff : d.toNat ≠ '0'.toNat := fun e => hzero (Char.toNat_inj.mp e)
          have h48 : '0'.toNat = 48 := rfl
          omega
        rw [if_neg hzero, toDigits_ofDigitChars_of_pos hpos hrest, toDigits_of_isDigit hd]
        rfl

/-- Reading more digits makes no number smaller. -/
theorem le_ofDigitChars (ds : List Char) (n : Nat) : n ≤ Nat.ofDigitChars 10 ds n := by
  rw [Nat.ofDigitChars_eq_ofDigitChars_zero]
  exact (Nat.le_mul_of_pos_left n (Nat.pow_pos (by decide))).trans (Nat.le_add_right _ _)

/-! ## 2. What is read from a key -/

/-- A hyphen is no digit, and neither is what takes its place. -/
theorem head?_replaceChar (old new : Char) (ho : old.isDigit = false) (hn : new.isDigit = false)
    (cs : List Char) :
    (replaceChar old new cs).head?.any Char.isDigit = cs.head?.any Char.isDigit := by
  cases cs with
  | nil => rfl
  | cons c cs =>
    show (if c = old then new else c).isDigit = c.isDigit
    split
    · rename_i hc
      rw [hc, ho, hn]
    · rfl

/-- **What is read from a key, by where its count ends.** -/
theorem demangle?_of_cut {m : String} {count name : List Char}
    (hm : m.toList = '_' :: 'O' :: (count ++ name)) (hrun : Run Char.isDigit count name) :
    demangle? m = if count ≠ [] ∧ Nat.ofDigitChars 10 count 0 = name.length then
      some (String.ofList (replaceChar '_' '-' name)) else none := by
  unfold demangle?
  rw [hm]
  simp only [hrun.takeWhile_eq, hrun.dropWhile_eq]

/-- A key from which a name is read has a count, and it is right. -/
theorem cut_of_demangle? {m n : String} (h : demangle? m = some n) :
    ∃ count name, m.toList = '_' :: 'O' :: (count ++ name) ∧ Run Char.isDigit count name ∧
      count ≠ [] ∧ Nat.ofDigitChars 10 count 0 = name.length ∧
      n = String.ofList (replaceChar '_' '-' name) := by
  unfold demangle? at h
  split at h
  · rename_i rest hm
    obtain ⟨count, name, hcut, hcount, hrun⟩ := eq_append_run Char.isDigit rest
    have hname : rest.dropWhile Char.isDigit = name := by rw [hcut, hrun.dropWhile_eq]
    simp only [hcount, hname] at h
    split at h
    · rename_i hright
      exact ⟨count, name, by rw [hm, hcut], hrun, hright.1, hright.2, (Option.some.inj h).symm⟩
    · cases h
  · cases h

/-- The key of a name that begins with a digit is refused: the count has taken the digits in, and is
    larger than what is left. -/
theorem demangle?_mangle_of_digit {n : String} (h : n.toList.head?.any Char.isDigit = true) :
    demangle? (mangle n) = none := by
  obtain ⟨run, rest, hcut, _, hrun⟩ := eq_append_run Char.isDigit (replaceChar '-' '_' n.toList)
  have hdigits : Run Char.isDigit (Nat.toDigits 10 n.toList.length ++ run) rest := by
    refine ⟨fun d hd => ?_, hrun.ends⟩
    rcases List.mem_append.mp hd with hd | hd
    · exact Nat.isDigit_of_mem_toDigits (by decide) (by decide) hd
    · exact hrun.all d hd
  have hm : (mangle n).toList =
      '_' :: 'O' :: ((Nat.toDigits 10 n.toList.length ++ run) ++ rest) := by
    rw [toList_mangle, hcut, List.append_assoc]
  have hne : run ≠ [] := by
    rintro rfl
    have hhead := head?_replaceChar '-' '_' rfl rfl n.toList
    rw [hcut, List.nil_append, hrun.ends, h] at hhead
    cases hhead
  have hlen : n.toList.length = run.length + rest.length := by
    rw [← length_replaceChar '-' '_' n.toList, hcut, List.length_append]
  rw [demangle?_of_cut hm hdigits, if_neg]
  rintro ⟨_, hcount⟩
  rw [Nat.ofDigitChars_append, Nat.ofDigitChars_ten_toDigits] at hcount
  have hle := le_ofDigitChars run n.toList.length
  have hpos := List.length_pos_of_ne_nil hne
  omega

/-- **What is read from the key of a name.** -/
theorem demangle?_mangle_eq (n : String) :
    demangle? (mangle n) = if n.toList.head?.any Char.isDigit = true then none
      else some (String.ofList (replaceChar '_' '-' n.toList)) := by
  by_cases hd : n.toList.head?.any Char.isDigit = true
  · rw [if_pos hd, demangle?_mangle_of_digit hd]
  · -- the name with hyphens for its underscores has the same key, and comes back from it
    have hkey : mangle n = mangle (String.ofList (replaceChar '_' '-' n.toList)) := by
      rw [mangle_eq_mangle_iff, String.toList_ofList, replaceChar_swap]
    have hplain : Name.Plain (String.ofList (replaceChar '_' '-' n.toList)) := by
      rw [Name.Plain, String.toList_ofList]
      exact not_mem_replaceChar (by decide) _
    rw [if_neg hd, hkey]
    refine demangle?_mangle hplain ?_
    rw [String.toList_ofList, head?_replaceChar '_' '-' rfl rfl]
    exact eq_false_of_ne_true hd

theorem demangle?_mangle_eq_self_iff (n : String) :
    demangle? (mangle n) = some n ↔
      '_' ∉ n.toList ∧ n.toList.head?.any Char.isDigit = false := by
  rw [demangle?_mangle_eq]
  by_cases hd : n.toList.head?.any Char.isDigit = true
  · simp [hd]
  · rw [if_neg hd, Option.some.injEq, ← String.toList_inj, String.toList_ofList]
    simp only [eq_false_of_ne_true hd, and_true]
    constructor
    · intro h
      rw [← h]
      exact not_mem_replaceChar (by decide) _
    · exact replaceChar_of_not_mem

/-- **The key of a name that was read** is the key it was read from, with the leading zeros of the
    count gone and the hyphens of the name replaced. -/
theorem mangle_of_demangle? {m n : String} (h : demangle? m = some n) :
    ∃ count name, m.toList = '_' :: 'O' :: (count ++ name) ∧ Run Char.isDigit count name ∧
      (mangle n).toList = '_' :: 'O' :: (trimZeros count ++ replaceChar '-' '_' name) := by
  obtain ⟨count, name, hm, hrun, hne, hcount, rfl⟩ := cut_of_demangle? h
  refine ⟨count, name, hm, hrun, ?_⟩
  rw [toList_mangle, String.toList_ofList, length_replaceChar, ← hcount,
    toDigits_ofDigitChars hne hrun.all, replaceChar_swap]

/-! ## 3. Counts as words -/

/-- The name a key may have come from, with the count read as a 64-bit word. -/
def readKey? (m : String) : Option String :=
  match m.toList with
  | '_' :: 'O' :: rest =>
    let name := rest.dropWhile Char.isDigit
    (Text.readWord? (String.ofList (rest.takeWhile Char.isDigit))).bind fun count =>
      if name.length = count.toNat then some (String.ofList (replaceChar '_' '-' name)) else none
  | _ => none

theorem readWord?_ofList {ds : List Char} (hne : ds ≠ []) (hall : ∀ d ∈ ds, d.isDigit = true) :
    Text.readWord? (String.ofList ds) = word? (Nat.ofDigitChars 10 ds 0) := by
  have hd : ds.all Char.isDigit = true := List.all_eq_true.mpr hall
  unfold Text.readWord? word?
  rw [String.toList_ofList]
  split
  · exact absurd (hall '+' List.mem_cons_self) (by decide)
  · simp [hd, hne]

/-- **A count that leaves the word is the count of no name that does not.** So nothing is lost by
    reading it as a word. -/
theorem readKey?_eq_some_iff {m n : String} :
    readKey? m = some n ↔ demangle? m = some n ∧ n.length < Text.wordLimit := by
  constructor
  · intro h
    unfold readKey? at h
    split at h
    · rename_i rest hm
      obtain ⟨count, name, rfl, hcount, hrun⟩ := eq_append_run Char.isDigit rest
      simp only [hrun.takeWhile_eq, hrun.dropWhile_eq] at h
      obtain ⟨w, hw, h⟩ := Option.bind_eq_some_iff.mp h
      have hne : count ≠ [] := by
        rintro rfl
        cases hw
      rw [readWord?_ofList hne hrun.all] at hw
      split at h
      · rename_i hlen
        rw [toNat_of_word? hw] at hlen
        have hright : count ≠ [] ∧ Nat.ofDigitChars 10 count 0 = name.length := ⟨hne, hlen.symm⟩
        rw [demangle?_of_cut hm hrun, if_pos hright]
        refine ⟨h, ?_⟩
        rw [← Option.some.inj h, ← String.length_toList, String.toList_ofList, length_replaceChar,
          hlen, ← toNat_of_word? hw]
        exact w.toNat_lt
      · cases h
    · cases h
  · rintro ⟨h, hlt⟩
    obtain ⟨count, name, hm, hrun, hne, hcount, rfl⟩ := cut_of_demangle? h
    rw [← String.length_toList, String.toList_ofList, length_replaceChar, ← hcount] at hlt
    unfold readKey?
    rw [hm]
    simp only [hrun.takeWhile_eq, hrun.dropWhile_eq, readWord?_ofList hne hrun.all]
    have hword : word? (Nat.ofDigitChars 10 count 0) = some _ := if_pos hlt
    rw [hword, Option.bind_some, if_pos]
    rw [toNat_of_word? hword, hcount]

/-! ## 4. The main result -/

/-- The name is one that the lexer makes an identifier of, in some source. -/
def Lexed (name : String) : Prop :=
  ∃ file source ts, tokenize file source = .ok ts ∧ ∃ t ∈ ts, t.kind = .ident ∧ t.value = name

theorem Lexed.inSource {name : String} (h : Lexed name) : InSource name := by
  obtain ⟨file, source, ts, hlex, t, ht, hk, rfl⟩ := h
  have hspelled : t.Spelled := lex_spelled hlex t ht (by rw [hk]; decide)
  exact hspelled.inSource (.inl hk)

/-- **Mangling can be undone.** A name comes back from its key exactly if it has no underscore and
    does not begin with a digit. The key of a name that begins with a digit is refused, and from any
    other the name comes back with hyphens for its underscores. So no two identifiers of sources
    have one key. And the key of a name that was read is the key it was read from, with the leading
    zeros of the count gone and the hyphens of the name replaced. Reading the count as a 64-bit word
    makes a difference only for names of 2^64 characters and more. -/
theorem mangle_reversible :
    (∀ n : String, demangle? (mangle n) = some n ↔
      '_' ∉ n.toList ∧ n.toList.head?.any Char.isDigit = false) ∧
    (∀ n : String, demangle? (mangle n) = if n.toList.head?.any Char.isDigit = true then none
      else some (String.ofList (replaceChar '_' '-' n.toList))) ∧
    (∀ a b : String, Lexed a → Lexed b → mangle a = mangle b → a = b) ∧
    (∀ m n : String, demangle? m = some n →
      ∃ count name, m.toList = '_' :: 'O' :: (count ++ name) ∧ Run Char.isDigit count name ∧
        (mangle n).toList = '_' :: 'O' :: (trimZeros count ++ replaceChar '-' '_' name)) ∧
    ∀ m n : String, readKey? m = some n ↔ demangle? m = some n ∧ n.length < Text.wordLimit := by
  refine ⟨demangle?_mangle_eq_self_iff, demangle?_mangle_eq, fun a b ha hb h => ?_,
    fun m n => mangle_of_demangle?, fun m n => readKey?_eq_some_iff⟩
  -- both names come back from the one key
  have hback : ∀ {name : String}, Lexed name → demangle? (mangle name) = some name := fun hname =>
    demangle?_mangle hname.inSource.plain hname.inSource.head_not_digit
  exact Option.some.inj ((hback ha).symm.trans ((congrArg demangle? h).trans (hback hb)))

/-- The identifiers `ab` and `a-b` of one source have different keys, and from `_O003a_b`, which is
    no key, the second is read all the same. -/
theorem mangle_reversible_of_zeros :
    mangle "ab" ≠ mangle "a-b" ∧ demangle? "_O003a_b" = some "a-b" ∧
      ∃ count name, "_O003a_b".toList = '_' :: 'O' :: (count ++ name) ∧
        Run Char.isDigit count name ∧
        (mangle "a-b").toList = '_' :: 'O' :: (trimZeros count ++ replaceChar '-' '_' name) := by
  obtain ⟨_, _, hinj, hread, _⟩ := mangle_reversible
  have hlexed : ∀ name ∈ ["ab", "a-b"], Lexed name := by
    intro name hname
    have hidents : (tokenize "names" "ab a-b").toOption.map
        (fun ts => (ts.filter (·.kind = .ident)).map Token.value) = some ["ab", "a-b"] := by
      decide +kernel
    cases hlex : tokenize "names" "ab a-b" with
    | error e =>
      rw [hlex] at hidents
      cases hidents
    | ok ts =>
      rw [hlex] at hidents
      rw [← Option.some.inj hidents] at hname
      obtain ⟨t, ht, rfl⟩ := List.mem_map.mp hname
      obtain ⟨ht, hk⟩ := List.mem_filter.mp ht
      exact ⟨_, _, ts, hlex, t, ht, of_decide_eq_true hk, rfl⟩
  have h : demangle? "_O003a_b" = some "a-b" := by cbv
  refine ⟨fun e => ?_, h, hread _ _ h⟩
  exact absurd (hinj _ _ (hlexed _ (by simp)) (hlexed _ (by simp)) e) (by decide)

end Osclan.Name
