/-
  File:      Osclan/Proofs/Reading.lean
  Subject:   Two judgements about readers, and their rules.

  A reader takes tokens off the front of a list. What it may take is one question, what it takes
  from a given list is another, and the rules for the two follow the way readers are put together:
  one rule for each way, none for a production.

  * `Yields` -- whatever a reader takes fits what it gives;
  * `Passes` -- a reader gets past given tokens, or stops at the first number in them that denotes
    no word;
  * `Yields.bind`, `Passes.bind`, … -- the rules;
  * `repeatWhile_yields`, `commaList_yields` -- the repetitions take what `Many` and `Listed` allow;
  * `repeatWhile_passes`, `commaList_passes` -- and they get past it.
-/
import Osclan.Program.Grammar
import Osclan.Proofs.Derivation

namespace Osclan

variable {α γ : Type} {b b' : Nat}

/-! ## 1. Looking at and taking one token -/

theorem StartsIn.check {kinds wanted : List TokenKind} {ts : List Token} (h : StartsIn kinds ts)
    (hs : kinds ⊆ wanted) : Tokens.check wanted ts = true := by
  obtain ⟨t, us, rfl, hk⟩ := h
  exact List.contains_iff_mem.mpr (hs hk)

theorem StartsIn.not_check {kinds wanted : List TokenKind} {ts : List Token}
    (h : StartsIn kinds ts) (hs : ∀ k ∈ kinds, k ∉ wanted) : Tokens.check wanted ts = false := by
  obtain ⟨t, us, rfl, hk⟩ := h
  exact Bool.eq_false_iff.mpr fun hc => hs _ hk (List.contains_iff_mem.mp hc)

theorem StartsIn.not_check' {kinds wanted : List TokenKind} {ts : List Token}
    (h : StartsIn kinds ts) (hs : ∀ k ∈ kinds, k ∉ wanted) :
    (!Tokens.check wanted ts) = true := by
  rw [h.not_check hs]
  rfl

theorem expect_of_mem {kinds : List TokenKind} {t : Token} (us : List Token)
    (h : t.kind ∈ kinds) :
    Tokens.expect kinds (t :: us) = .ok ⟨t, us, Nat.lt_succ_self _⟩ := by
  rw [Tokens.expect, Tokens.expectAs, if_pos (List.contains_iff_mem.mpr h)]

theorem expect_of_not_mem {kinds : List TokenKind} {t : Token} (us : List Token)
    (h : t.kind ∉ kinds) : Tokens.expect kinds (t :: us) = Grammar.unexpected kinds t := by
  have hc : ¬ kinds.contains t.kind = true := fun hc => h (List.contains_iff_mem.mp hc)
  rw [Tokens.expect, Tokens.expectAs, if_neg hc]
  rfl

/-- A number gives its word, or stops the reading. -/
theorem numberOf_eq {t : Token} (h : t.kind = .number) :
    Grammar.numberOf t = if t.unreadable then .error (.invalidNumber t.value t.pos)
      else .ok t.word := by
  have hk : (t.kind == .number) = true := beq_iff_eq.mpr h
  unfold Grammar.numberOf Token.unreadable Token.word
  rw [hk, Bool.true_and]
  cases Text.readWord? t.value with
  | none => rfl
  | some n => rfl

theorem number_of_kind {t : Token} (us : List Token) (h : t.kind = .number) :
    Grammar.number (t :: us) =
      if t.unreadable then .error (.invalidNumber t.value t.pos)
      else .ok ⟨t.word, us, Nat.lt_succ_self _⟩ := by
  rw [Grammar.number, expect_of_mem us (List.mem_singleton.mpr h)]
  show (Grammar.numberOf t >>= fun n =>
    .ok (⟨n, us, Nat.lt_succ_self _⟩ : Parsed UInt64 (t :: us).length)) = _
  rw [numberOf_eq h]
  split
  · rfl
  · rfl

/-! ## 2. What a reader may take -/

/-- Where the reader succeeds on `ts`, it has taken the tokens before the rest, and they fit its
    result. None of them ends the file, and the numbers among them denote words. -/
def Yields (ts : List Token) (P : α → List Token → List Token → Prop)
    (r : Except ParseError (Parsed α b)) : Prop :=
  ∀ v rest h, r = .ok ⟨v, rest, h⟩ → ∃ pre, ts = pre ++ rest ∧ P v pre rest ∧
    ∀ t ∈ pre, t.unreadable = false ∧ t.kind ≠ .eof

namespace Yields

variable {ts : List Token} {P : α → List Token → List Token → Prop}
  {P' : γ → List Token → List Token → Prop}

theorem pure {v : α} {h : ts.length < b} (hp : P v [] ts) :
    Yields ts P (Pure.pure ⟨v, ts, h⟩ : Except ParseError (Parsed α b)) := by
  intro w rest h' e
  cases e
  exact ⟨[], rfl, hp, fun t ht => absurd ht List.not_mem_nil⟩

theorem error {e : ParseError} : Yields ts P (.error e : Except ParseError (Parsed α b)) := by
  intro v rest h he
  cases he

/-- **What two readers take in a row is put together.** -/
theorem bind {r : Except ParseError (Parsed α b)}
    {k : Parsed α b → Except ParseError (Parsed γ b')} (hr : Yields ts P r)
    (hk : ∀ v mid h pre, ts = pre ++ mid → P v pre mid →
      Yields mid (fun w post rest => P' w (pre ++ post) rest) (k ⟨v, mid, h⟩)) :
    Yields ts P' (r >>= k) := by
  intro w rest h e
  cases hre : r with
  | error err =>
    rw [hre] at e
    cases e
  | ok p =>
    obtain ⟨v, mid, hm⟩ := p
    obtain ⟨pre, rfl, hp, hgood⟩ := hr v mid hm hre
    rw [hre] at e
    obtain ⟨post, rfl, hp', hgood'⟩ := hk v mid hm pre rfl hp w rest h e
    refine ⟨pre ++ post, (List.append_assoc _ _ _).symm, hp', ?_⟩
    intro t ht
    rcases List.mem_append.mp ht with ht | ht
    · exact hgood t ht
    · exact hgood' t ht

/-- A token in front, of a kind that is neither a number nor the end. -/
theorem token {t : Token} {us : List Token} {kind : TokenKind}
    {r : Except ParseError (Parsed α b)} (ht : t.kind = kind)
    (hn : kind ≠ .number ∧ kind ≠ .eof)
    (hr : Yields us (fun v post rest => P v (t :: post) rest) r) : Yields (t :: us) P r := by
  intro v rest h e
  obtain ⟨pre, rfl, hp, hgood⟩ := hr v rest h e
  refine ⟨t :: pre, rfl, hp, ?_⟩
  intro u hu
  rcases List.mem_cons.mp hu with rfl | hu
  · rw [Token.unreadable, ht, beq_false_of_ne hn.1, Bool.false_and]
    exact ⟨rfl, hn.2⟩
  · exact hgood u hu

/-- A taken token is of one of the wanted kinds. -/
theorem expect {kinds : List TokenKind}
    {k : Parsed Token ts.length → Except ParseError (Parsed γ b')}
    (hn : .number ∉ kinds ∧ .eof ∉ kinds)
    (hk : ∀ t us h, t.kind ∈ kinds →
      Yields us (fun w post rest => P' w (t :: post) rest) (k ⟨t, us, h⟩)) :
    Yields ts P' (Tokens.expect kinds ts >>= k) := by
  cases ts with
  | nil => exact error
  | cons t us =>
    by_cases ht : t.kind ∈ kinds
    · rw [expect_of_mem us ht]
      exact token rfl ⟨fun he => hn.1 (he ▸ ht), fun he => hn.2 (he ▸ ht)⟩ (hk t us _ ht)
    · rw [expect_of_not_mem us ht]
      exact error

/-- A taken token is of the wanted kind. -/
theorem take {kind : TokenKind} {k : Parsed Token ts.length → Except ParseError (Parsed γ b')}
    (hn : kind ≠ .number ∧ kind ≠ .eof)
    (hk : ∀ t us h, t.kind = kind →
      Yields us (fun w post rest => P' w (t :: post) rest) (k ⟨t, us, h⟩)) :
    Yields ts P' (Tokens.expect [kind] ts >>= k) := by
  refine expect ⟨?_, ?_⟩ fun t us h ht => hk t us h (List.mem_singleton.mp ht)
  · exact fun h => hn.1 (List.mem_singleton.mp h).symm
  · exact fun h => hn.2 (List.mem_singleton.mp h).symm

theorem ident {k : Parsed String ts.length → Except ParseError (Parsed γ b')}
    (hk : ∀ (t : Token) us h, t.kind = .ident →
      Yields us (fun w post rest => P' w (t :: post) rest) (k ⟨t.value, us, h⟩)) :
    Yields ts P' (Grammar.ident ts >>= k) := by
  have hr : Yields ts (fun v pre _ => ∃ t : Token, pre = [t] ∧ t.kind = .ident ∧ t.value = v)
      (Grammar.ident ts) := by
    refine take (by decide) fun t us h ht => pure ?_
    exact ⟨t, rfl, ht, rfl⟩
  refine hr.bind ?_
  rintro v us h pre - ⟨t, rfl, ht, rfl⟩
  exact hk t us h ht

/-- A number that is taken denotes a word. -/
theorem number {k : Parsed UInt64 ts.length → Except ParseError (Parsed γ b')}
    (hk : ∀ (t : Token) us h, t.kind = .number →
      Yields us (fun w post rest => P' w (t :: post) rest) (k ⟨t.word, us, h⟩)) :
    Yields ts P' (Grammar.number ts >>= k) := by
  have hr : Yields ts (fun v pre _ => ∃ t : Token, pre = [t] ∧ t.kind = .number ∧ t.word = v)
      (Grammar.number ts) := by
    intro v rest h e
    cases ts with
    | nil => cases e
    | cons t us =>
      by_cases ht : t.kind = .number
      · rw [number_of_kind us ht] at e
        split at e
        · cases e
        · rename_i hr
          cases e
          refine ⟨[t], rfl, ⟨t, rfl, ht, rfl⟩, ?_⟩
          intro u hu
          rw [List.mem_singleton.mp hu, ht]
          exact ⟨eq_false_of_ne_true hr, TokenKind.noConfusion⟩
      · rw [Grammar.number, expect_of_not_mem us (mt List.mem_singleton.mp ht)] at e
        cases e
  refine hr.bind ?_
  rintro v us h pre - ⟨t, rfl, ht, rfl⟩
  exact hk t us h ht

end Yields

section

variable {more : List Token → Bool} {bound : Nat}
  {element : (us : List Token) → us.length < bound → Reads α us}

/-- **What a repetition takes** fits any `R` that the elements build up from nothing, where the
    test fails. -/
theorem repeatWhile_yields {P : α → List Token → List Token → Prop}
    {R : List α → List Token → List Token → Prop} (he : ∀ us hu, Yields us P (element us hu))
    (hnil : ∀ rest, more rest = false → R [] [] rest)
    (hcons : ∀ v vs pre post rest, P v pre (post ++ rest) → R vs post rest →
      R (v :: vs) (pre ++ post) rest) (ts : List Token) (h : ts.length < bound) :
    Yields ts R (Grammar.repeatWhile more bound element ts h) := by
  rw [Grammar.repeatWhile]
  split
  · refine (he ts h).bind fun v us hu pre _ hp => ?_
    refine (repeatWhile_yields he hnil hcons us _).bind fun vs ws hw post hus hr => ?_
    refine Yields.pure ?_
    rw [List.append_nil]
    exact hcons v vs pre post ws (hus ▸ hp) hr
  · rename_i hm
    exact Yields.pure (hnil ts (eq_false_of_ne_true hm))
termination_by ts.length

variable {β : Type} {P : List Token → β → Prop} {f : α → β}

theorem repeatWhile_many (he : ∀ us hu, Yields us (fun v pre _ => P pre (f v)) (element us hu))
    (ts : List Token) (h : ts.length < bound) :
    Yields ts (fun vs pre _ => Many P pre (vs.map f))
      (Grammar.repeatWhile more bound element ts h) :=
  repeatWhile_yields he (fun _ _ => .nil) (fun _ _ _ _ _ hp hr => .cons hp hr) ts h

/-- **What a list between commas takes** is such a list. -/
theorem commaList_yields (he : ∀ us hu, Yields us (fun v pre _ => P pre (f v)) (element us hu))
    (ts : List Token) (h : ts.length < bound) :
    Yields ts (fun vs pre _ => Listed P pre (vs.map f))
      (Grammar.commaList bound element ts h) := by
  rw [Grammar.commaList]
  split
  · exact Yields.pure .nil
  · refine (he ts h).bind fun v us hu pre _ hp => ?_
    refine Yields.bind (repeatWhile_many (P := AfterComma P) (f := f) ?_ us _)
      fun vs ws hw post _ hr => ?_
    · intro us hu
      refine Yields.take (by decide) fun t vs hv ht => ?_
      refine (he vs _).bind fun w xs hx post _ hp => Yields.pure ?_
      rw [List.append_nil]
      exact .mk ht hp
    · refine Yields.pure ?_
      rw [List.append_nil]
      exact .cons hp hr

end

/-! ## 3. What a reader gets past -/

/-- On tokens that begin with `pre`, the reader stops at the first number of `pre` that denotes no
    word; without such a number it takes `pre`, leaves `rest` and gives a result as wanted. -/
def Passes (pre rest : List Token) (Q : α → Prop) (r : Except ParseError (Parsed α b)) : Prop :=
  match pre.find? Token.unreadable with
  | some t => r = .error (.invalidNumber t.value t.pos)
  | none => ∃ v h, r = .ok ⟨v, rest, h⟩ ∧ Q v

namespace Passes

variable {pre post rest : List Token} {Q : α → Prop} {Q' : γ → Prop} {t : Token}

theorem pure {v : α} {h : rest.length < b} (hq : Q v) :
    Passes [] rest Q (Pure.pure ⟨v, rest, h⟩ : Except ParseError (Parsed α b)) :=
  ⟨v, h, rfl, hq⟩

/-- **Two readers in a row get past two parts.** -/
theorem bind {r : Except ParseError (Parsed α b)}
    {k : Parsed α b → Except ParseError (Parsed γ b')} (hr : Passes pre (post ++ rest) Q r)
    (hk : ∀ v h, Q v → Passes post rest Q' (k ⟨v, post ++ rest, h⟩)) :
    Passes (pre ++ post) rest Q' (r >>= k) := by
  unfold Passes at hr ⊢
  rw [List.find?_append]
  cases hf : pre.find? Token.unreadable with
  | some t =>
    simp only [hf] at hr
    rw [hr]
    rfl
  | none =>
    simp only [hf] at hr
    obtain ⟨v, h, rfl, hq⟩ := hr
    exact hk v h hq

/-- The second reader takes nothing. -/
theorem last {r : Except ParseError (Parsed α b)}
    {k : Parsed α b → Except ParseError (Parsed γ b')} (hr : Passes pre rest Q r)
    (hk : ∀ v h, Q v → Passes [] rest Q' (k ⟨v, rest, h⟩)) : Passes pre rest Q' (r >>= k) := by
  have h : Passes (pre ++ []) rest Q' (r >>= k) := @bind _ _ _ _ _ [] _ _ _ _ _ hr hk
  rwa [List.append_nil] at h

theorem ite_true {c : Bool} {r r' : Except ParseError (Parsed α b)} (hc : c = true)
    (hr : Passes pre rest Q r) : Passes pre rest Q (if c then r else r') := by
  rwa [if_pos hc]

theorem ite_false {c : Bool} {r r' : Except ParseError (Parsed α b)} (hc : c = false)
    (hr : Passes pre rest Q r') : Passes pre rest Q (if c then r else r') := by
  rwa [if_neg (Bool.eq_false_iff.mp hc)]

/-- A token in front that is no number. -/
theorem token {kind : TokenKind} {r : Except ParseError (Parsed α b)} (ht : t.kind = kind)
    (hn : kind ≠ .number) (hr : Passes post rest Q r) : Passes (t :: post) rest Q r := by
  have hu : t.unreadable = false := by
    rw [Token.unreadable, ht, beq_false_of_ne hn, Bool.false_and]
  unfold Passes at hr ⊢
  rw [List.find?_cons, hu]
  exact hr

theorem expect {kinds : List TokenKind}
    {k : Parsed Token (t :: (post ++ rest)).length → Except ParseError (Parsed γ b')}
    (hn : .number ∉ kinds) (ht : t.kind ∈ kinds)
    (hk : ∀ h, Passes post rest Q' (k ⟨t, post ++ rest, h⟩)) :
    Passes (t :: post) rest Q' (Tokens.expect kinds (t :: (post ++ rest)) >>= k) := by
  rw [expect_of_mem _ ht]
  exact token rfl (fun he => hn (he ▸ ht)) (hk _)

theorem take {kind : TokenKind}
    {k : Parsed Token (t :: (post ++ rest)).length → Except ParseError (Parsed γ b')}
    (ht : t.kind = kind) (hn : kind ≠ .number)
    (hk : ∀ h, Passes post rest Q' (k ⟨t, post ++ rest, h⟩)) :
    Passes (t :: post) rest Q' (Tokens.expect [kind] (t :: (post ++ rest)) >>= k) :=
  expect (fun h => hn (List.mem_singleton.mp h).symm) (List.mem_singleton.mpr ht) hk

theorem ident {k : Parsed String (t :: (post ++ rest)).length → Except ParseError (Parsed γ b')}
    (ht : t.kind = .ident) (hk : ∀ h, Passes post rest Q' (k ⟨t.value, post ++ rest, h⟩)) :
    Passes (t :: post) rest Q' (Grammar.ident (t :: (post ++ rest)) >>= k) := by
  have hr : Passes [t] (post ++ rest) (· = t.value) (Grammar.ident (t :: (post ++ rest))) :=
    take ht (by decide) fun _ => pure rfl
  refine hr.bind ?_
  rintro _ h rfl
  exact hk h

theorem number {k : Parsed UInt64 (t :: (post ++ rest)).length → Except ParseError (Parsed γ b')}
    (ht : t.kind = .number) (hk : ∀ h, Passes post rest Q' (k ⟨t.word, post ++ rest, h⟩)) :
    Passes (t :: post) rest Q' (Grammar.number (t :: (post ++ rest)) >>= k) := by
  have hr : Passes [t] (post ++ rest) (· = t.word) (Grammar.number (t :: (post ++ rest))) := by
    unfold Passes
    rw [number_of_kind _ ht, List.find?_singleton]
    cases hu : t.unreadable with
    | true => rfl
    | false => exact ⟨t.word, _, rfl, rfl⟩
  refine hr.bind ?_
  rintro _ h rfl
  exact hk h

end Passes

section

variable {more : List Token → Bool} {bound : Nat}
  {element : (us : List Token) → us.length < bound → Reads α us}
  {β : Type} {P : List Token → β → Prop} {f : α → β} {F : List Token → Prop}

/-- **A repetition gets past many elements** and on to a tail it gets past. `F` says what may follow
    an element. -/
theorem repeatWhile_passes_append {pre tail rest : List Token} {bs cs : List β}
    (he : ∀ {p b}, P p b → ∀ us hu rest, us = p ++ rest → F rest →
      Passes p rest (fun v => f v = b) (element us hu))
    (hm : ∀ {p b}, P p b → ∀ rest, more (p ++ rest) = true ∧ F (p ++ rest))
    (hF : F (tail ++ rest))
    (ht : ∀ ts h, ts = tail ++ rest → Passes tail rest (fun vs => vs.map f = cs)
      (Grammar.repeatWhile more bound element ts h)) (hp : Many P pre bs) :
    ∀ ts h, ts = (pre ++ tail) ++ rest → Passes (pre ++ tail) rest
      (fun vs => vs.map f = bs ++ cs) (Grammar.repeatWhile more bound element ts h) := by
  induction hp with
  | nil => exact ht
  | @cons p others b bs hb hbs ih =>
    intro ts h hts
    rw [List.append_assoc, List.append_assoc] at hts
    have hmore : more ts = true := hts ▸ (hm hb _).1
    have hnext : F ((others ++ tail) ++ rest) := by
      cases hbs with
      | nil => exact hF
      | cons hb' _ =>
        rw [List.append_assoc, List.append_assoc]
        exact (hm hb' _).2
    rw [Grammar.repeatWhile, if_pos hmore, List.append_assoc]
    rw [← List.append_assoc others] at hts
    refine (he hb ts h _ hts hnext).bind fun v hv e => ?_
    refine (ih _ _ rfl).last fun vs _ es => Passes.pure ?_
    rw [List.map_cons, e, es, List.cons_append]

/-- **A repetition gets past many elements** and stops where its test fails. -/
theorem repeatWhile_passes {pre rest : List Token} {bs : List β}
    (he : ∀ {p b}, P p b → ∀ us hu rest, us = p ++ rest → F rest →
      Passes p rest (fun v => f v = b) (element us hu))
    (hm : ∀ {p b}, P p b → ∀ rest, more (p ++ rest) = true ∧ F (p ++ rest))
    (hF : F rest) (hstop : more rest = false) (hp : Many P pre bs) (ts : List Token)
    (h : ts.length < bound) (hts : ts = pre ++ rest) :
    Passes pre rest (fun vs => vs.map f = bs) (Grammar.repeatWhile more bound element ts h) := by
  have ht : ∀ ts h, ts = [] ++ rest → Passes [] rest (fun vs => vs.map f = [])
      (Grammar.repeatWhile more bound element ts h) := by
    rintro _ h rfl
    rw [Grammar.repeatWhile, if_neg (Bool.eq_false_iff.mp hstop)]
    exact Passes.pure rfl
  have hF' : F ([] ++ rest) := hF
  have hall := repeatWhile_passes_append he hm hF' ht hp ts h
  rw [List.append_nil, List.append_nil] at hall
  exact hall hts

/-- **A list between commas gets past its elements,** up to a closing bracket. -/
theorem commaList_passes {pre rest : List Token} {r : Token} {bs : List β}
    (he : ∀ {p b}, P p b → ∀ us hu rest, us = p ++ rest → F rest →
      Passes p rest (fun v => f v = b) (element us hu))
    (hfirst : ∀ {p b}, P p b → ∀ rest, Tokens.check [.rparen] (p ++ rest) = false)
    (hF : ∀ t us, t.kind = .comma ∨ t.kind = .rparen → F (t :: us)) (hr : r.kind = .rparen)
    (hp : Listed P pre bs) (ts : List Token) (h : ts.length < bound)
    (hts : ts = pre ++ (r :: rest)) :
    Passes pre (r :: rest) (fun vs => vs.map f = bs) (Grammar.commaList bound element ts h) := by
  rw [Grammar.commaList]
  cases hp with
  | nil =>
    have hc : Tokens.check [.rparen] ts = true := by
      rw [hts]
      simp [Tokens.check, hr]
    rw [if_pos hc]
    subst hts
    exact Passes.pure rfl
  | @cons p others b bs hb hbs =>
    rw [List.append_assoc] at hts
    have hc : ¬ Tokens.check [.rparen] ts = true := by
      rw [hts, hfirst hb]
      exact Bool.false_ne_true
    rw [if_neg hc]
    have hnext : F (others ++ r :: rest) := by
      cases hbs with
      | nil => exact hF r rest (.inr hr)
      | cons hc _ =>
        cases hc with
        | mk hc _ => exact hF _ _ (.inl hc)
    refine (he hb ts h _ hts hnext).bind fun v hv e => ?_
    refine Passes.last (repeatWhile_passes (P := AfterComma P) (f := f) (F := F) ?_ ?_
      (hF r rest (.inr hr)) ?_ hbs _ _ rfl) fun vs _ es => Passes.pure ?_
    · intro p b hb us hu rest hus hF
      cases hb with
      | @mk c q b hc hb =>
        subst hus
        refine Passes.take hc (by decide) fun _ => ?_
        exact (he hb _ _ _ rfl hF).last fun w _ e => Passes.pure e
    · intro p b hb rest
      cases hb with
      | mk hc _ => exact ⟨by simp [Tokens.check, hc], hF _ _ (.inl hc)⟩
    · simp [Tokens.check, hr]
    · rw [List.map_cons, e, es]

end

end Osclan
