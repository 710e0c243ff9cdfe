/-
  File:      Osclan/Proofs/Spelling.lean
  Subject:   Tokens written as words between blanks.

  A word that is a token on its own is the same token with a blank behind it. So a text of such
  words, one blank between neighbours, is cut at these blanks and nowhere else. Every token of a
  source has such a word: what it was spelled as may depend on case, its value does not.

  * `head_eq` -- the cases of `HeadIs` exclude each other;
  * `Separates`, `head_append_sep` -- characters that end the token before them;
  * `ReadsAs` -- a word is a token on its own;
  * `spelling`, `lex_spelled` -- the word of a token, and that it reads as the token;
  * `spaced`, `lex_spaced` -- the tokens of a text of words.
-/
import Mathlib.Data.List.Forall2
import Osclan.Proofs.CutPlaces

namespace Osclan

/-! ## 1. The head is determined -/

section

variable {c : Char} {cs : List Char}

theorem head_of_opens (h : Opens c cs) :
    head c cs = match reserved? (c :: cs) with
      | some row => .token row.kind row.value (row.text.length - 1)
      | none =>
        if Text.isAlphabetic c then
          .token .ident (String.ofList (c :: cs.takeWhile isIdentChar))
            (cs.takeWhile isIdentChar).length
        else if c.isDigit then
          .token .number (String.ofList (c :: cs.takeWhile Char.isDigit))
            (cs.takeWhile Char.isDigit).length
        else match symbolKind? c with
          | some kind => .token kind (String.singleton c) 0
          | none => .foreign := by
  unfold head headWith
  rw [if_neg (ne_true_of_eq_false h.notBlank), if_neg h.notComment, if_neg h.notQuote]
  rfl

/-- **The cases of the head exclude each other.** -/
theorem head_eq {h : Head} (hi : HeadIs c cs h) : head c cs = h := by
  cases hi with
  | blank hb =>
    unfold head headWith
    rw [if_pos hb]
  | @comment body rest hrun =>
    have ht : ('*' :: (body ++ rest)).takeWhile (· ≠ '\n') = '*' :: body := by
      rw [List.takeWhile_cons_of_pos (by decide), hrun.takeWhile_eq]
    unfold head headWith
    rw [if_neg (by decide), if_pos ⟨rfl, rfl⟩, ht, List.length_cons]
  | @text body rest hq =>
    have hrun : Run (· ≠ '"') body ('"' :: rest) :=
      ⟨fun d hd => by simpa using fun e : d = '"' => hq (e ▸ hd), rfl⟩
    have hlt : body.length < (body ++ '"' :: rest).length := by
      rw [List.length_append, List.length_cons]
      omega
    unfold head headWith
    rw [if_neg (by decide), if_neg (fun h => absurd h.1 (by decide)), if_pos rfl]
    simp only [hrun.takeWhile_eq, if_pos hlt]
  | openText hq =>
    have hrun : Run (· ≠ '"') cs [] :=
      ⟨fun d hd => by simpa using fun e : d = '"' => hq (e ▸ hd), rfl⟩
    have ht := hrun.takeWhile_eq
    rw [List.append_nil] at ht
    unfold head headWith
    rw [if_neg (by decide), if_neg (fun h => absurd h.1 (by decide)), if_pos rfl]
    simp only [ht, Nat.lt_irrefl, if_false]
  | reserved ho hr => rw [head_of_opens ho, hr]
  | ident ho hr ha hrun =>
    rw [head_of_opens ho, hr]
    simp only [ha, if_true, hrun.takeWhile_eq]
  | number ho hr ha hd hrun =>
    rw [head_of_opens ho, hr]
    simp only [ha, hd, Bool.false_eq_true, if_false, if_true, hrun.takeWhile_eq]
  | symbol ho hr ha hd hs =>
    rw [head_of_opens ho, hr]
    simp only [ha, hd, Bool.false_eq_true, if_false, hs]
  | foreign ho hr ha hd hs =>
    rw [head_of_opens ho, hr]
    simp only [ha, hd, Bool.false_eq_true, if_false, hs]

/-! ## 2. Reserved texts and what follows them -/

/-- A character that ends whatever token stands before it, and makes no comment of a dot. -/
structure Separates (d : Char) : Prop where
  ident : isIdentChar d = false
  digit : d.isDigit = false
  star : d ≠ '*'
  lower : Text.lower d = d
  reserved : ∀ r ∈ reservedWords, d ∉ r.text.toList

theorem separates_space : Separates ' ' := by
  constructor <;> decide

theorem beginsWith_append_sep {d : Char} (hd : Text.lower d = d) {rest : List Char} :
    ∀ {word input : List Char}, d ∉ word →
      Text.beginsWith word (input ++ d :: rest) = Text.beginsWith word input
  | [], _, _ => rfl
  | w :: word, [], h => by
    have hw : (Text.lower d == w) = false := by
      rw [hd, beq_eq_false_iff_ne]
      exact fun e => h (e ▸ List.mem_cons_self)
    show (Text.lower d == w && Text.beginsWith word rest) = false
    rw [hw, Bool.false_and]
  | w :: word, c :: input, h => by
    rw [List.cons_append, Text.beginsWith, Text.beginsWith,
      beginsWith_append_sep hd fun hm => h (List.mem_cons_of_mem _ hm)]

theorem beginsWith_append (rest : List Char) : ∀ {word input : List Char},
    Text.beginsWith word input = true → Text.beginsWith word (input ++ rest) = true
  | [], _, _ => rfl
  | w :: word, [], h => by cases h
  | w :: word, d :: input, h => by
    rw [Text.beginsWith, Bool.and_eq_true] at h
    rw [List.cons_append, Text.beginsWith, h.1, beginsWith_append rest h.2]
    rfl

/-- What a reserved text must not run into can only come from the characters themselves, if those
    behind them do not begin with an identifier character. -/
theorem next_append {n : Nat} {cs rest : List Char} (hn : n ≤ cs.length)
    (hr : rest.head?.any isIdentChar = false) :
    ((cs ++ rest).drop n).head?.any isIdentChar = (cs.drop n).head?.any isIdentChar := by
  rw [List.drop_append_of_le_length hn]
  cases hd : cs.drop n with
  | nil =>
    rw [List.nil_append, hr]
    rfl
  | cons d ds => rfl

theorem standsAt_append_sep {d : Char} (hd : Separates d) {row : Reserved}
    (hrow : row ∈ reservedWords) (cs rest : List Char) :
    row.standsAt (cs ++ d :: rest) = row.standsAt cs := by
  have hsp : (d :: rest).head?.any isIdentChar = false := hd.ident
  unfold Reserved.standsAt
  rw [beginsWith_append_sep hd.lower (hd.reserved row hrow)]
  by_cases hb : Text.beginsWith row.text.toList cs = true
  · have hle := length_le_of_beginsWith hb
    rw [String.length_toList] at hle
    rw [next_append hle hsp]
  · rw [eq_false_of_ne_true hb, Bool.false_and, Bool.false_and]

theorem standsAt_append {row : Reserved} {cs rest : List Char}
    (hr : rest.head?.any isIdentChar = false) (h : row.standsAt cs = true) :
    row.standsAt (cs ++ rest) = true := by
  unfold Reserved.standsAt at h ⊢
  obtain ⟨hb, hn⟩ := (Bool.and_eq_true _ _).mp h
  have hle := length_le_of_beginsWith hb
  rw [String.length_toList] at hle
  rw [beginsWith_append rest hb, next_append hle hr, hn]
  rfl

theorem reserved?_append_sep {d : Char} (hd : Separates d) (cs rest : List Char) :
    reserved? (cs ++ d :: rest) = reserved? cs := by
  unfold reserved?
  rw [← List.head?_filter, ← List.head?_filter]
  rw [List.filter_congr fun row hrow => standsAt_append_sep hd hrow cs rest]

theorem reserved?_eq_none_of_append {cs rest : List Char}
    (hr : rest.head?.any isIdentChar = false) (h : reserved? (cs ++ rest) = none) :
    reserved? cs = none := by
  unfold reserved? at h ⊢
  rw [List.find?_eq_none] at h ⊢
  exact fun row hrow hs => h row hrow (standsAt_append hr hs)

theorem toNat_of_isDigit (h : c.isDigit = true) : 48 ≤ c.toNat ∧ c.toNat ≤ 57 := by
  simp only [Char.isDigit, Bool.and_eq_true, decide_eq_true_eq] at h
  exact ⟨UInt32.le_iff_toNat_le.mp h.1, UInt32.le_iff_toNat_le.mp h.2⟩

theorem isAlphabetic_of_isDigit (h : c.isDigit = true) : Text.isAlphabetic c = false := by
  have hc := toNat_of_isDigit h
  have hlo : decide (0x41 ≤ c.toNat) = false := decide_eq_false (by omega)
  show (decide (0x41 ≤ c.toNat) && _) = false
  rw [hlo, Bool.false_and]

theorem isBlank_of_isDigit (h : c.isDigit = true) : Text.isBlank c = false := by
  have hc := toNat_of_isDigit h
  have h1 : ¬ c.toNat ≤ 0xd := by omega
  have h2 : ¬ c.toNat ≤ 0x20 := by omega
  have h3 : ¬ 0x85 ≤ c.toNat := by omega
  simp only [Text.isBlank, Text.blankRanges, Text.covers, h1, h2, h3, decide_false,
    Bool.false_and, Bool.false_or, Bool.and_false]

/-- Case is for letters: every other character is its own lower case. -/
theorem lower_of_notLetter (h : Text.isAlphabetic c = false) : Text.lower c = c := by
  have hk : c ≠ '\u212a' := by
    rintro rfl
    exact absurd h (by decide +kernel)
  have hu : ¬ (c.val ≥ 'A'.val ∧ c.val ≤ 'Z'.val) := by
    rintro ⟨hA, hZ⟩
    have hlo : 0x41 ≤ c.toNat := UInt32.le_iff_toNat_le.mp hA
    have hhi : c.toNat ≤ 0x5a := UInt32.le_iff_toNat_le.mp hZ
    have ha : Text.isAlphabetic c = true := by
      show (decide (0x41 ≤ c.toNat) && (decide (c.toNat ≤ 0x5a) || _)) = true
      rw [decide_eq_true hlo, decide_eq_true hhi, Bool.true_or, Bool.true_and]
    rw [ha] at h
    cases h
  unfold Text.lower Char.toLower
  rw [if_neg hk, dif_neg hu]

theorem lower_of_isDigit (h : c.isDigit = true) : Text.lower c = c :=
  lower_of_notLetter (isAlphabetic_of_isDigit h)

/-- No reserved text begins with a digit. -/
theorem reserved?_digit (hd : c.isDigit = true) : reserved? (c :: cs) = none := by
  have hall : ∀ r ∈ reservedWords, r.text.toList.head?.any (!·.isDigit) = true := by decide
  unfold reserved?
  rw [List.find?_eq_none]
  intro row hrow hs
  obtain ⟨hb, _⟩ := (Bool.and_eq_true _ _).mp hs
  have hw := hall row hrow
  cases ht : row.text.toList with
  | nil =>
    rw [ht] at hw
    cases hw
  | cons w word =>
    rw [ht, Text.beginsWith, Bool.and_eq_true, beq_iff_eq, lower_of_isDigit hd] at hb
    rw [ht, List.head?_cons, Option.any_some, ← hb.1, hd] at hw
    cases hw

end

/-! ## 3. Words -/

/-- The word on its own is one token, of the given kind and value. -/
def ReadsAs (word : String) (kind : TokenKind) (value : String) : Prop :=
  (word.toList.head?.map fun c => head c word.toList.tail) =
    some (.token kind value word.toList.tail.length)

instance (word : String) (kind : TokenKind) (value : String) :
    Decidable (ReadsAs word kind value) :=
  inferInstanceAs (Decidable (_ = _))

theorem readsAs_iff {word : String} {kind : TokenKind} {value : String} :
    ReadsAs word kind value ↔
      ∃ c cs, word.toList = c :: cs ∧ head c cs = .token kind value cs.length := by
  unfold ReadsAs
  cases word.toList with
  | nil =>
    constructor
    · intro h
      cases h
    · rintro ⟨c, cs, h, _⟩
      cases h
  | cons c cs =>
    constructor
    · intro h
      exact ⟨c, cs, rfl, Option.some.inj h⟩
    · rintro ⟨_, _, e, h⟩
      cases e
      exact congrArg some h

theorem ReadsAs.unique {word : String} {kind kind' : TokenKind} {value value' : String}
    (h : ReadsAs word kind value) (h' : ReadsAs word kind' value') :
    kind' = kind ∧ value' = value := by
  unfold ReadsAs at h h'
  rw [h] at h'
  cases h'
  exact ⟨rfl, rfl⟩

theorem Opens.append_sep {d : Char} (hd : Separates d) {c : Char} {cs : List Char}
    (h : Opens c cs) (rest : List Char) : Opens c (cs ++ d :: rest) := by
  refine ⟨h.notBlank, fun hc => h.notComment ⟨hc.1, ?_⟩, h.notQuote⟩
  cases cs with
  | nil => exact absurd (Option.some.inj hc.2) hd.star
  | cons d cs => exact hc.2

theorem Run.append_sep {p : Char → Bool} {run rest : List Char} (h : Run p run rest) {d : Char}
    (hd : p d = false) (more : List Char) : Run p run (rest ++ d :: more) := by
  refine ⟨h.all, ?_⟩
  cases rest with
  | nil => exact hd
  | cons c rest => exact h.ends

/-- **A separator behind a token changes nothing.** -/
theorem head_append_sep {d : Char} (hd : Separates d) {c : Char} {cs : List Char}
    {kind : TokenKind} {value : String} {more : Nat} (h : head c cs = .token kind value more)
    (rest : List Char) : head c (cs ++ d :: rest) = .token kind value more := by
  have hi := head_is c cs
  rw [h] at hi
  have hreserved := reserved?_append_sep hd (c :: cs) rest
  apply head_eq
  cases hi with
  | @text body after hq =>
    rw [List.append_assoc]
    exact .text hq
  | reserved ho hr => exact .reserved (ho.append_sep hd rest) (hreserved.trans hr)
  | @ident _ tail after ho hr ha hrun =>
    have ho' := ho.append_sep hd rest
    have hr' := hreserved.trans hr
    rw [List.cons_append, List.append_assoc] at hr'
    rw [List.append_assoc] at ho' ⊢
    exact .ident ho' hr' ha (hrun.append_sep hd.ident rest)
  | @number _ tail after ho hr ha hdigit hrun =>
    have ho' := ho.append_sep hd rest
    have hr' := hreserved.trans hr
    rw [List.cons_append, List.append_assoc] at hr'
    rw [List.append_assoc] at ho' ⊢
    exact .number ho' hr' ha hdigit (hrun.append_sep hd.digit rest)
  | symbol ho hr ha hdigit hs =>
    exact .symbol (ho.append_sep hd rest) (hreserved.trans hr) ha hdigit hs

/-! ## 4. The words of tokens -/

/-- The word that stands for a token: a text literal in its quotes, any other token as its
    value. -/
def spelling (kind : TokenKind) (value : String) : String :=
  if kind = .text then "\"" ++ value ++ "\"" else value

theorem readsAs_text {content : String} (h : '"' ∉ content.toList) :
    ReadsAs (spelling .text content) .text content := by
  refine readsAs_iff.mpr ⟨'"', content.toList ++ ['"'], ?_, ?_⟩
  · simp [spelling, String.toList_append]
  · have ht := head_eq (@HeadIs.text content.toList [] h)
    rw [String.ofList_toList] at ht
    rw [ht, List.length_append]
    rfl

/-- Digits are a number. -/
theorem readsAs_number {digits : String} (hne : digits.toList ≠ [])
    (hd : ∀ d ∈ digits.toList, d.isDigit = true) : ReadsAs digits .number digits := by
  cases e : digits.toList with
  | nil => exact absurd e hne
  | cons c tail =>
    rw [e] at hd
    have hc := hd c List.mem_cons_self
    have hrun : Run Char.isDigit tail [] := ⟨fun d hm => hd d (List.mem_cons_of_mem _ hm), rfl⟩
    have hopens : Opens c (tail ++ []) := by
      refine ⟨isBlank_of_isDigit hc, ?_, ?_⟩
      · rintro ⟨rfl, -⟩
        exact absurd hc (by decide)
      · rintro rfl
        exact absurd hc (by decide)
    have hn := head_eq (.number hopens (reserved?_digit hc) (isAlphabetic_of_isDigit hc) hc hrun)
    have hw : String.ofList (c :: tail) = digits := by rw [← e, String.ofList_toList]
    rw [List.append_nil, hw] at hn
    exact readsAs_iff.mpr ⟨c, tail, e, hn⟩

/-- A name is one without what follows it. -/
theorem readsAs_ident {c : Char} {tail rest : List Char} (ho : Opens c (tail ++ rest))
    (hr : reserved? (c :: (tail ++ rest)) = none) (ha : Text.isAlphabetic c = true)
    (hrun : Run isIdentChar tail rest) :
    ReadsAs (String.ofList (c :: tail)) .ident (String.ofList (c :: tail)) := by
  have hopens : Opens c (tail ++ []) := by
    refine ⟨ho.notBlank, ?_, ho.notQuote⟩
    rintro ⟨rfl, -⟩
    exact absurd ha (by decide)
  have hnone : reserved? (c :: (tail ++ [])) = none := by
    rw [List.append_nil]
    exact @reserved?_eq_none_of_append (c :: tail) rest hrun.ends hr
  have hn := head_eq (.ident hopens hnone ha ⟨hrun.all, rfl⟩)
  rw [List.append_nil] at hn
  exact readsAs_iff.mpr ⟨c, tail, String.toList_ofList, hn⟩

/-- **A token at the head of a text can be read back from its word.** -/
theorem head_reads {c : Char} {cs : List Char} {kind : TokenKind} {value : String} {more : Nat}
    (h : head c cs = .token kind value more) : ReadsAs (spelling kind value) kind value := by
  have hi := head_is c cs
  rw [h] at hi
  cases hi with
  | text hq => exact readsAs_text (by rwa [String.toList_ofList])
  | @reserved _ _ row ho hr =>
    have hall : ∀ r ∈ reservedWords, ReadsAs (spelling r.kind r.value) r.kind r.value := by
      decide +kernel
    exact hall row (reserved?_eq_some hr).1
  | ident ho hr ha hrun => exact readsAs_ident ho hr ha hrun
  | @number _ tail rest ho hr ha hd hrun =>
    have hlist : (String.ofList (c :: tail)).toList = c :: tail := String.toList_ofList
    refine @readsAs_number (String.ofList (c :: tail)) ?_ ?_
    · rw [hlist]
      exact List.cons_ne_nil _ _
    · intro d hm
      rw [hlist] at hm
      rcases List.mem_cons.mp hm with rfl | hm
      · exact hd
      · exact hrun.all d hm
  | symbol ho hr ha hd hs =>
    have hall : ∀ r ∈ symbols, ReadsAs (spelling r.2 (String.singleton r.1)) r.2
        (String.singleton r.1) := by decide +kernel
    exact hall (c, kind) (mem_symbols_of_symbolKind? hs)

/-- A token that can be read back from its word. -/
def Token.Spelled (t : Token) : Prop := ReadsAs (spelling t.kind t.value) t.kind t.value

/-- **Every token of a text but the last can be read back from its word.** -/
theorem lex_spelled {pos : Position} {cs : List Char} {ts : List Token} (h : lex pos cs = .ok ts)
    (t : Token) (ht : t ∈ ts) (hk : t.kind ≠ .eof) : t.Spelled := by
  obtain ⟨_, _, _, _, _, _, hh⟩ := lex_token h ht hk
  exact head_reads hh

/-! ## 5. Texts of words -/

/-- The words with one blank between neighbours. -/
def spaced (words : List String) : String := " ".intercalate words

/-- The tokens are those of the words, one for each, wherever they stand. -/
def TokensOf (words : List String) (ts : List Token) : Prop :=
  List.Forall₂ (fun t w => ReadsAs w t.kind t.value) ts words

/-- The word is a token on its own. -/
def IsWord (word : String) : Prop := ∃ kind value, ReadsAs word kind value

/-- The characters after a word are looked at from the place after it. -/
theorem lex_word {word : String} {kind : TokenKind} {value : String}
    (h : ReadsAs word kind value) (pos : Position) {rest : List Char}
    (hrest : rest = [] ∨ ∃ more, rest = ' ' :: more) :
    lex pos (word.toList ++ rest) =
      (lex (pos.after word.toList) rest).map (⟨kind, value, pos⟩ :: ·) := by
  obtain ⟨c, cs, hw, hh⟩ := readsAs_iff.mp h
  have hhead : head c (cs ++ rest) = .token kind value cs.length := by
    rcases hrest with rfl | ⟨more, rfl⟩
    · rw [List.append_nil]
      exact hh
    · exact head_append_sep separates_space hh more
  have htaken : (head c (cs ++ rest)).taken? = some cs.length := by
    rw [hhead]
    rfl
  rw [hw, List.cons_append, lex_cut htaken, hhead]
  rfl

/-- A blank is passed over. -/
theorem lex_blank {c : Char} (h : Text.isBlank c = true) (pos : Position) (cs : List Char) :
    lex pos (c :: cs) = lex (pos.next c) cs := by
  have hb : head c cs = .gap 0 := head_eq (.blank h)
  have htaken : (head c ([] ++ cs)).taken? = some ([] : List Char).length := by
    rw [List.nil_append, hb]
    rfl
  have hcut := lex_cut htaken pos
  rw [List.nil_append, hb] at hcut
  exact hcut.trans (map_nil_append _)

/-- **A text of words is cut into the tokens of the words.** -/
theorem lex_spaced : ∀ {words : List String}, (∀ w ∈ words, IsWord w) → ∀ pos : Position,
    ∃ ts e, lex pos (spaced words).toList = .ok (ts ++ [e]) ∧ e.kind = .eof ∧ TokensOf words ts
  | [], _, pos => by
    refine ⟨[], ⟨.eof, "", pos⟩, ?_, rfl, .nil⟩
    exact lex_nil pos
  | [w], h, pos => by
    obtain ⟨kind, value, hw⟩ := h w List.mem_cons_self
    have hl := lex_word hw pos (.inl rfl)
    have htext : (spaced [w]).toList = w.toList ++ [] := by
      simp [spaced]
    rw [htext, hl, lex_nil]
    exact ⟨[⟨kind, value, pos⟩], _, rfl, rfl, .cons hw .nil⟩
  | w :: w' :: words, h, pos => by
    obtain ⟨kind, value, hw⟩ := h w List.mem_cons_self
    obtain ⟨ts, e, hrest, he, hts⟩ := lex_spaced (fun v hv => h v (List.mem_cons_of_mem _ hv))
      ((pos.after w.toList).next ' ')
    have htext : (spaced (w :: w' :: words)).toList =
        w.toList ++ ' ' :: (spaced (w' :: words)).toList := by
      simp [spaced, String.toList_intercalate]
    refine ⟨⟨kind, value, pos⟩ :: ts, e, ?_, he, .cons hw hts⟩
    rw [htext, lex_word hw pos (.inr ⟨_, rfl⟩), lex_blank (by decide), hrest]
    rfl

end Osclan
