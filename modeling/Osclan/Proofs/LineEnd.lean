/-
  File:      Osclan/Proofs/LineEnd.lean
  Subject:   Cutting a text at the end of a line.

  A line end closes whatever token or comment stands before it, as the end of the text would. So two
  texts with a line end between them are cut as each of them is cut on its own: the tokens of the
  first, without its end token, and those of the second, from the place where it stands. What is cut
  from a text does not depend on that place, but for the places of the tokens themselves.

  * `Move`, `lex_moved` -- places moved to another file, line and offset, and a text cut there;
  * `head_append_newline` -- a line end is as good as the end of the text;
  * `lex_append_newline`, `tokenize_append_newline` -- the tokens of two texts with a line end
    between them.
-/
import Osclan.Proofs.Spelling

namespace Osclan

/-! ## 1. Places -/

/-- A move of places to a file, by some lines and characters. Columns stay. -/
structure Move where
  file : String
  lines : Nat
  chars : Nat

/-- The new place. -/
def Position.moved (m : Move) (p : Position) : Position :=
  ⟨m.file, p.line + m.lines, p.col, p.offset + m.chars⟩

/-- The token at its new place. -/
def Token.moved (m : Move) (t : Token) : Token := { t with pos := t.pos.moved m }

/-- The fault at its new place. -/
def LexError.moved (m : Move) : LexError → LexError
  | .unterminatedText opened => .unterminatedText (opened.moved m)
  | .unexpectedChar c pos => .unexpectedChar c (pos.moved m)

theorem Position.moved_next (m : Move) (p : Position) (c : Char) :
    (p.next c).moved m = (p.moved m).next c := by
  by_cases hc : c = '\n'
  · simp only [Position.next, Position.moved, hc, if_true, Position.mk.injEq, true_and]
    omega
  · simp only [Position.next, Position.moved, if_neg hc, Position.mk.injEq, true_and]
    omega

theorem Position.moved_after (m : Move) : ∀ (cs : List Char) (p : Position),
    (p.after cs).moved m = (p.moved m).after cs
  | [], _ => rfl
  | c :: cs, p => by
    show ((p.next c).after cs).moved m = ((p.moved m).next c).after cs
    rw [Position.moved_after m cs, Position.moved_next]

theorem Head.tokens_moved (m : Move) (pos : Position) (h : Head) :
    h.tokens (pos.moved m) = (h.tokens pos).map (Token.moved m) := by
  cases h <;> rfl

/-- **A text is cut alike wherever it stands.** -/
theorem lex_moved (m : Move) (pos : Position) (cs : List Char) :
    lex (pos.moved m) cs =
      ((lex pos cs).map (List.map (Token.moved m))).mapError (LexError.moved m) := by
  induction cs using cut_induction generalizing pos with
  | nil =>
    rw [lex_nil, lex_nil]
    rfl
  | stop c cs hh =>
    rcases Head.stops hh with ho | hf
    · rw [lex_openText ho, lex_openText ho]
      rfl
    · rw [lex_foreign hf, lex_foreign hf]
      rfl
  | cut c lexeme tail hh ih =>
    -- what stands at the head does not depend on the place
    rw [lex_cut hh, lex_cut hh, ← Position.moved_after, ih, Head.tokens_moved]
    cases lex (pos.after (c :: lexeme)) tail with
    | ok us => exact congrArg Except.ok List.map_append.symm
    | error e => rfl

/-! ## 2. The head of a text before a line end -/

theorem separates_newline : Separates '\n' := by
  constructor <;> decide

/-- **A line end is as good as the end of the text**, unless a text literal is open. -/
theorem head_append_newline {c : Char} {cs : List Char} (h : head c cs ≠ .openText)
    (ds : List Char) : head c (cs ++ '\n' :: ds) = head c cs := by
  cases hh : head c cs with
  | token kind value more => exact head_append_sep separates_newline hh ds
  | openText => exact absurd hh h
  | gap more =>
    have hi := head_is c cs
    rw [hh] at hi
    cases hi with
    | blank hb => exact head_eq (.blank hb)
    | @comment body rest hrun =>
      rw [List.cons_append, List.append_assoc]
      exact head_eq (.comment (hrun.append_sep rfl ds))
  | foreign =>
    have hi := head_is c cs
    rw [hh] at hi
    have hreserved := reserved?_append_sep separates_newline (c :: cs) ds
    cases hi with
    | foreign ho hr ha hd hs =>
      exact head_eq (.foreign (ho.append_sep separates_newline ds) (hreserved.trans hr) ha hd hs)

/-! ## 3. Two texts -/

section

variable {c : Char} {cs lexeme tail : List Char} {pos : Position}

/-- Behind a head that is taken the lexer goes on, also before a line end. -/
theorem lex_cut_newline (h : (head c (lexeme ++ tail)).taken? = some lexeme.length)
    (pos : Position) (ds : List Char) :
    lex pos (c :: (lexeme ++ tail) ++ '\n' :: ds) =
      (lex (pos.after (c :: lexeme)) (tail ++ '\n' :: ds)).map
        ((head c (lexeme ++ tail)).tokens pos ++ ·) := by
  have hhead : head c (lexeme ++ (tail ++ '\n' :: ds)) = head c (lexeme ++ tail) := by
    rw [← List.append_assoc]
    refine head_append_newline (fun ho => ?_) ds
    rw [ho] at h
    cases h
  rw [List.cons_append, List.append_assoc, lex_cut (by rw [hhead, h]), hhead]

/-- **Two texts with a line end between them**: the first is cut as it is on its own, but for its
    end token, and then the second. -/
theorem lex_append_newline {ts : List Token} (h : lex pos cs = .ok ts) :
    ∃ pre, ts = pre ++ [⟨.eof, "", pos.after cs⟩] ∧
      ∀ ds, lex pos (cs ++ '\n' :: ds) =
        (lex ((pos.after cs).next '\n') ds).map (pre ++ ·) := by
  induction cs using cut_induction generalizing pos ts with
  | nil =>
    rw [lex_nil] at h
    refine ⟨[], (Except.ok.inj h).symm, fun ds => ?_⟩
    rw [List.nil_append, lex_blank (by decide), map_nil_append]
    rfl
  | stop c cs hh => exact absurd h (lex_stop_ne_ok hh)
  | cut c lexeme tail hh ih =>
    obtain ⟨us, hus, rfl⟩ := (lex_cut_ok hh).mp h
    obtain ⟨pre, rfl, hrest⟩ := ih hus
    rw [← Position.after_append, List.cons_append] at hrest ⊢
    refine ⟨(head c (lexeme ++ tail)).tokens pos ++ pre, (List.append_assoc _ _ _).symm, ?_⟩
    intro ds
    rw [lex_cut_newline hh, hrest, map_append_append]

end

/-! ## 4. Sources -/

theorem toList_stacked (source₁ source₂ : String) :
    (source₁ ++ "\n" ++ source₂).toList = source₁.toList ++ '\n' :: source₂.toList := by
  simp [String.toList_append]

/-- The place behind a line end is the beginning of a file, moved. -/
theorem Position.exists_move (p : Position) (file : String) :
    ∃ m, p.next '\n' = (Position.start file).moved m := by
  refine ⟨⟨p.file, p.line, p.offset + 1⟩, ?_⟩
  simp only [Position.next, Position.start, Position.moved, if_true, Position.mk.injEq, true_and]
  omega

/-- **The tokens of two sources with a line end between them** are those of the first, without its
    end token, and those of the second, each moved to where the source stands. -/
theorem tokenize_append_newline (file : String) {file₁ file₂ source₁ source₂ : String}
    {pre₁ ts₂ : List Token} {e₁ : Token} (h₁ : tokenize file₁ source₁ = .ok (pre₁ ++ [e₁]))
    (h₂ : tokenize file₂ source₂ = .ok ts₂) :
    ∃ m₁ m₂ : Move, tokenize file (source₁ ++ "\n" ++ source₂) =
      .ok (pre₁.map (Token.moved m₁) ++ ts₂.map (Token.moved m₂)) := by
  rw [tokenize_eq_lex] at h₁ h₂ ⊢
  have hfirst := lex_moved ⟨file, 0, 0⟩ (Position.start file₁) source₁.toList
  rw [h₁] at hfirst
  obtain ⟨pre, hpre, hboth⟩ := lex_append_newline hfirst
  rw [List.map_append] at hpre
  obtain ⟨rfl, _⟩ := List.append_inj' hpre rfl
  obtain ⟨m₂, hm₂⟩ := Position.exists_move
    (((Position.start file₁).moved ⟨file, 0, 0⟩).after source₁.toList) file₂
  refine ⟨⟨file, 0, 0⟩, m₂, ?_⟩
  have hstart : Position.start file = (Position.start file₁).moved ⟨file, 0, 0⟩ := rfl
  rw [toList_stacked, hstart, hboth, hm₂, lex_moved, h₂]
  rfl

end Osclan
