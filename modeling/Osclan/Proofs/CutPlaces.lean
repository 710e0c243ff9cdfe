/-
  File:      Osclan/Proofs/CutPlaces.lean
  Subject:   The places where a text is cut.

  The lexer takes a gap or a lexeme off the head of a text and goes on behind it, until the text is
  used up or a head can not be taken. So what it says of a text is said place by place: each token
  is the head of the text at its place, and a fault is the head that could not be taken.

  * `Head.taken?`, `cut_induction` -- what the head takes, and induction along the cut;
  * `lex_cut`, `lex_openText`, `lex_foreign` -- the lexer at a head that is taken, and at one that
    can not be;
  * `CutAt`, `CutAt.lex_eq` -- the places the lexer comes to, and what it does from there on;
  * `lex_token`, `lex_fault` -- the place of a token, and that of a fault.
-/
import Osclan.Proofs.Lexeme

namespace Osclan

/-! ## 1. Induction along the cut -/

/-- How many characters behind the first the head takes: none can be taken of an open text or of a
    foreign character. -/
def Head.taken? : Head → Option Nat
  | .gap more => some more
  | .token _ _ more => some more
  | .openText => none
  | .foreign => none

/-- The tokens of a head that stands at `pos`: a token is one, and a gap is none. -/
def Head.tokens (pos : Position) : Head → List Token
  | .gap _ => []
  | .token kind value _ => [⟨kind, value, pos⟩]
  | .openText => []
  | .foreign => []

theorem Head.stops {h : Head} (ht : h.taken? = none) : h = .openText ∨ h = .foreign := by
  cases h with
  | gap more => cases ht
  | token kind value more => cases ht
  | openText => exact .inl rfl
  | foreign => exact .inr rfl

/-- The head takes no more characters than there are. -/
theorem taken?_le {c : Char} {cs : List Char} {n : Nat} (h : (head c cs).taken? = some n) :
    n ≤ cs.length := by
  have hi := head_is c cs
  generalize head c cs = hd at hi h
  cases hi with
  | comment | text | ident | number =>
    rw [← Option.some.inj h]
    simp only [List.length_cons, List.length_append]
    omega
  | @reserved _ _ row _ hr =>
    obtain ⟨hb, _⟩ := (Bool.and_eq_true _ _).mp (reserved?_eq_some hr).2
    have hle := length_le_of_beginsWith hb
    rw [String.length_toList, List.length_cons] at hle
    rw [← Option.some.inj h]
    omega
  | blank | symbol =>
    rw [← Option.some.inj h]
    exact Nat.zero_le _
  | openText | foreign => cases h

/-- What the head takes stands in the text. -/
theorem exists_lexeme {c : Char} {cs : List Char} {n : Nat} (h : (head c cs).taken? = some n) :
    ∃ lexeme tail, cs = lexeme ++ tail ∧ lexeme.length = n :=
  ⟨cs.take n, cs.drop n, (List.take_append_drop n cs).symm, List.length_take_of_le (taken?_le h)⟩

/-- **Induction along the cut of a text**: the text is used up, its head can not be taken, or it
    goes on behind its head. -/
@[elab_as_elim]
theorem cut_induction {motive : List Char → Prop} (nil : motive [])
    (stop : ∀ c cs, (head c cs).taken? = none → motive (c :: cs))
    (cut : ∀ c lexeme tail, (head c (lexeme ++ tail)).taken? = some lexeme.length → motive tail →
      motive (c :: (lexeme ++ tail))) (cs : List Char) : motive cs := by
  -- the head takes at least its first character, so what is behind it is shorter
  induction hn : cs.length using Nat.strongRecOn generalizing cs with
  | ind n ih =>
    cases cs with
    | nil => exact nil
    | cons c cs =>
      cases ht : (head c cs).taken? with
      | none => exact stop c cs ht
      | some k =>
        obtain ⟨lexeme, tail, rfl, rfl⟩ := exists_lexeme ht
        rw [List.length_cons, List.length_append] at hn
        exact cut c lexeme tail ht (ih tail.length (by omega) tail rfl)

/-! ## 2. The lexer at a head -/

theorem Position.after_append (p : Position) (cs ds : List Char) :
    p.after (cs ++ ds) = (p.after cs).after ds :=
  List.foldl_append

section

variable {ε : Type} (x : Except ε (List Token))

theorem map_nil_append : x.map ([] ++ ·) = x := by
  cases x <;> rfl

theorem map_append_append (ts us : List Token) :
    (x.map (us ++ ·)).map (ts ++ ·) = x.map (ts ++ us ++ ·) := by
  cases x with
  | ok vs => exact congrArg Except.ok (List.append_assoc ts us vs).symm
  | error e => rfl

end

section

variable {c : Char} {cs lexeme tail front rest : List Char} {pos : Position}

theorem tokenize_eq_lex (file source : String) :
    tokenize file source = lex (Position.start file) source.toList := rfl

theorem lex_nil (pos : Position) : lex pos [] = .ok [⟨.eof, "", pos⟩] := by
  rw [lex, lexWith]

/-- **Behind a head that is taken the lexer goes on.** -/
theorem lex_cut (h : (head c (lexeme ++ tail)).taken? = some lexeme.length) (pos : Position) :
    lex pos (c :: (lexeme ++ tail)) =
      (lex (pos.after (c :: lexeme)) tail).map ((head c (lexeme ++ tail)).tokens pos ++ ·) := by
  unfold head at h ⊢
  rw [lex, lex, lexWith]
  cases hh : headWith reservedWords c (lexeme ++ tail) with
  | gap more =>
    rw [hh] at h
    obtain rfl := Option.some.inj h
    simp only [List.take_left, List.drop_left]
    exact (map_nil_append _).symm
  | token kind value more =>
    rw [hh] at h
    obtain rfl := Option.some.inj h
    simp only [List.take_left, List.drop_left]
    cases lexWith reservedWords (pos.after (c :: lexeme)) tail <;> rfl
  | openText =>
    rw [hh] at h
    cases h
  | foreign =>
    rw [hh] at h
    cases h

/-- **A text that stays open is a fault.** -/
theorem lex_openText (h : head c cs = .openText) (pos : Position) :
    lex pos (c :: cs) = .error (.unterminatedText pos) := by
  unfold head at h
  rw [lex, lexWith]
  simp only [h]

/-- **A foreign character is a fault.** -/
theorem lex_foreign (h : head c cs = .foreign) (pos : Position) :
    lex pos (c :: cs) = .error (.unexpectedChar c pos) := by
  unfold head at h
  rw [lex, lexWith]
  simp only [h]

theorem lex_stop_ne_ok (h : (head c cs).taken? = none) {ts : List Token} :
    lex pos (c :: cs) ≠ .ok ts := by
  intro hok
  rcases Head.stops h with ho | hf
  · cases (lex_openText ho pos).symm.trans hok
  · cases (lex_foreign hf pos).symm.trans hok

/-- What is cut into tokens behind its head is cut into tokens. -/
theorem lex_cut_ok (h : (head c (lexeme ++ tail)).taken? = some lexeme.length) {ts : List Token} :
    lex pos (c :: (lexeme ++ tail)) = .ok ts ↔
      ∃ us, lex (pos.after (c :: lexeme)) tail = .ok us ∧
        ts = (head c (lexeme ++ tail)).tokens pos ++ us := by
  rw [lex_cut h pos]
  cases lex (pos.after (c :: lexeme)) tail with
  | ok us =>
    constructor
    · intro he
      exact ⟨us, rfl, (Except.ok.inj he).symm⟩
    · rintro ⟨_, he, rfl⟩
      cases he
      rfl
  | error e =>
    constructor
    · intro he
      cases he
    · rintro ⟨_, he, _⟩
      cases he

theorem lex_cut_error (h : (head c (lexeme ++ tail)).taken? = some lexeme.length) {e : LexError} :
    lex pos (c :: (lexeme ++ tail)) = .error e ↔ lex (pos.after (c :: lexeme)) tail = .error e := by
  rw [lex_cut h pos]
  cases lex (pos.after (c :: lexeme)) tail with
  | ok us =>
    constructor
    · intro he
      cases he
    · intro he
      cases he
  | error e' =>
    constructor
    · intro he
      exact congrArg _ (Except.error.inj he)
    · intro he
      exact congrArg _ (Except.error.inj he)

/-! ## 3. Places -/

/-- **The lexer comes to the place between `front` and `rest`**: cutting the text of the two, it
    takes the characters of `front` off in gaps and lexemes. -/
inductive CutAt : List Char → List Char → Prop where
  | here {rest : List Char} : CutAt [] rest
  | behind {c : Char} {lexeme front rest : List Char} :
      (head c (lexeme ++ (front ++ rest))).taken? = some lexeme.length → CutAt front rest →
      CutAt (c :: (lexeme ++ front)) rest

/-- **From a place it comes to, the lexer goes on as if the text began there.** -/
theorem CutAt.lex_eq (h : CutAt front rest) (pos : Position) :
    ∃ pre, lex pos (front ++ rest) = (lex (pos.after front) rest).map (pre ++ ·) := by
  induction h generalizing pos with
  | @here rest =>
    exact ⟨[], (map_nil_append _).symm⟩
  | @behind c lexeme front rest hh _ ih =>
    obtain ⟨pre, hpre⟩ := ih (pos.after (c :: lexeme))
    refine ⟨(head c (lexeme ++ (front ++ rest))).tokens pos ++ pre, ?_⟩
    rw [List.cons_append, List.append_assoc, lex_cut hh, hpre, map_append_append,
      ← Position.after_append, List.cons_append]

/-- **Every token but the last is the head of the text at its place.** -/
theorem lex_token {ts : List Token} (h : lex pos cs = .ok ts) {t : Token} (ht : t ∈ ts)
    (hk : t.kind ≠ .eof) : ∃ front c rest more, cs = front ++ c :: rest ∧ t.pos = pos.after front ∧
      head c rest = .token t.kind t.value more := by
  induction cs using cut_induction generalizing pos ts with
  | nil =>
    rw [lex_nil] at h
    rw [← Except.ok.inj h, List.mem_singleton] at ht
    rw [ht] at hk
    exact absurd rfl hk
  | stop c cs hh => exact absurd h (lex_stop_ne_ok hh)
  | cut c lexeme tail hh ih =>
    obtain ⟨us, hus, rfl⟩ := (lex_cut_ok hh).mp h
    rcases List.mem_append.mp ht with ht | ht
    · cases he : head c (lexeme ++ tail) with
      | token kind value more =>
        rw [he, Head.tokens, List.mem_singleton] at ht
        subst ht
        exact ⟨[], c, lexeme ++ tail, more, rfl, rfl, he⟩
      | _ =>
        rw [he] at ht
        cases ht
    · obtain ⟨front, d, rest, more, rfl, hpos, hd⟩ := ih hus ht
      refine ⟨c :: (lexeme ++ front), d, rest, more, ?_, ?_, hd⟩
      · rw [List.cons_append, List.append_assoc]
      · rw [hpos, ← Position.after_append, List.cons_append]

/-- **A fault is a head that can not be taken, at a place the lexer comes to.** -/
theorem lex_fault {e : LexError} (h : lex pos cs = .error e) :
    ∃ front c rest, cs = front ++ c :: rest ∧ CutAt front (c :: rest) ∧
      (head c rest = .openText ∧ e = .unterminatedText (pos.after front) ∨
        head c rest = .foreign ∧ e = .unexpectedChar c (pos.after front)) := by
  induction cs using cut_induction generalizing pos with
  | nil =>
    rw [lex_nil] at h
    cases h
  | stop c cs hh =>
    refine ⟨[], c, cs, rfl, .here, ?_⟩
    rcases Head.stops hh with ho | hf
    · rw [lex_openText ho] at h
      exact .inl ⟨ho, (Except.error.inj h).symm⟩
    · rw [lex_foreign hf] at h
      exact .inr ⟨hf, (Except.error.inj h).symm⟩
  | cut c lexeme tail hh ih =>
    obtain ⟨front, d, rest, rfl, hcut, hfault⟩ := ih ((lex_cut_error hh).mp h)
    refine ⟨c :: (lexeme ++ front), d, rest, ?_, .behind hh hcut, ?_⟩
    · rw [List.cons_append, List.append_assoc]
    · rwa [← Position.after_append, List.cons_append] at hfault

end

end Osclan
