/-
  File:      Osclan/Proofs/Acceptance.lean
  Subject:   The sources that pass all stages.

  A source is accepted if it is cut into tokens, the tokens form a program, and the program passes a
  fresh check. What a step of the check gives is read off without its state, so that it can be
  computed for a given program; and the tokens of a given source are written down with their places
  on its one line.

  * `Accepted` -- the sources that pass, with their programs and results;
  * `Check.succeeds`, `Check.outcome`, `Check.abort?` -- how a step ends;
  * `sampleToken`, `tokenOf` -- tokens of samples;
  * `accepted_of_stages` -- a source is accepted if its stages are computed.
-/
import Osclan.Analysis
import Osclan.Program.Grammar
import Osclan.Program.Tree
import Osclan.Token.Lexer

namespace Osclan

/-! ## 1. Accepted sources -/

/-- The source is cut into tokens, the tokens form the program, and the program's tree passes a
    fresh check with the given result. -/
def Accepted (file source : String) (p : Program) (a : Analysis) : Prop :=
  ∃ ts s, tokenize file source = .ok ts ∧ Program.ofTokens ts = .ok p ∧
    Check.analyze p.toNode Analyzer.fresh = .ok a s

/-! ## 2. The end of a step -/

namespace Check

variable {α : Type} {step : Check α} {s : Analyzer}

/-- Does the step give a result? -/
def succeeds (step : Check α) (s : Analyzer) : Bool :=
  match step s with
  | .ok _ _ => true
  | .error _ _ => false

theorem ok_of_succeeds (h : step.succeeds s = true) : ∃ a s', step s = .ok a s' := by
  unfold Check.succeeds at h
  split at h
  · rename_i a s' hr
    exact ⟨a, s', hr⟩
  · cases h

/-- What a step gives or why it stops, without the state. -/
def outcome (step : Check α) (s : Analyzer) : Except Abort α :=
  match step s with
  | .ok a _ => .ok a
  | .error e _ => .error e

/-- Why a step stops, if it does. -/
def abort? (step : Check α) (s : Analyzer) : Option Abort :=
  match step s with
  | .ok _ _ => none
  | .error e _ => some e

theorem error_of_abort? {e : Abort} (h : step.abort? s = some e) : ∃ s', step s = .error e s' := by
  unfold Check.abort? at h
  split at h
  · cases h
  · rename_i s' hr
    exact ⟨s', by rw [hr, Option.some.inj h]⟩

end Check

/-! ## 3. Samples -/

/-- A token on the one line of a sample, behind `offset` characters. -/
def sampleToken (offset : Nat) (kind : TokenKind) (value : String) : Token :=
  ⟨kind, value, ⟨"sample", 1, offset + 1, offset⟩⟩

/-- A token of a sample where the places do not matter. -/
def tokenOf (kind : TokenKind) (value : String) : Token := sampleToken 0 kind value

theorem ok_of_toOption {ε α : Type} {r : Except ε α} {a : α} (h : r.toOption = some a) :
    r = .ok a := by
  cases r with
  | error e => cases h
  | ok b => rw [Option.some.inj h]

/-- A source is accepted if each stage can be computed. -/
theorem accepted_of_stages {file source : String} {ts : List Token} {p : Program}
    (ht : (tokenize file source).toOption = some ts) (hp : Program.ofTokens ts = .ok p)
    (ha : (Check.analyze p.toNode).succeeds Analyzer.fresh = true) :
    ∃ a, Accepted file source p a := by
  obtain ⟨a, s, hr⟩ := Check.ok_of_succeeds ha
  exact ⟨a, ts, s, ok_of_toOption ht, hp, hr⟩

end Osclan
