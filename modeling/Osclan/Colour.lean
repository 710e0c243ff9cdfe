/-
  File:      Osclan/Colour.lean
  Subject:   Coloured text for a terminal.

  A coloured text is a list of spans. Its rendering writes a control sequence only where the colour
  changes: from one colour straight to the next only the new one is switched on, and the default
  comes back before plain text and at the end. An empty coloured span still switches.
-/
namespace Osclan

/-- The colours of a terminal that are used. -/
inductive Colour where
  | red | green | yellow | blue | magenta | cyan
  deriving DecidableEq, Repr

/-- A control sequence with the given parameter. -/
def controlSequence (parameter : String) : String := "\x1b[" ++ parameter ++ "m"

/-- The sequence that switches a colour on. -/
def Colour.on : Colour → String
  | .red => controlSequence "31"
  | .green => controlSequence "32"
  | .yellow => controlSequence "33"
  | .blue => controlSequence "34"
  | .magenta => controlSequence "35"
  | .cyan => controlSequence "36"

/-- The sequence that brings the default colour back. -/
def Colour.off : String := controlSequence "39"

/-- A piece of text in one colour, or in the default. -/
structure Span where
  colour : Option Colour
  text : String
  deriving DecidableEq, Repr

namespace Span

/-- A piece in the default colour. -/
def plain (text : String) : Span := ⟨none, text⟩

/-- A piece in the given colour. -/
def inColour (colour : Colour) (text : String) : Span := ⟨some colour, text⟩

/-- What is written where the colour changes. -/
def switch : (old new : Option Colour) → String
  | _, some colour => colour.on
  | some _, none => Colour.off
  | none, none => ""

/-- The spans as terminal text, after text in the colour `current`. -/
def paintFrom (current : Option Colour) : List Span → String
  | [] => switch current none
  | s :: rest => switch current s.colour ++ s.text ++ paintFrom s.colour rest

/-- The spans as terminal text. -/
def paint (spans : List Span) : String := paintFrom none spans

end Span

/-- A bold word in a colour, such as the mark in front of a message. -/
def badge (colour : Colour) (word : String) : String :=
  colour.on ++ controlSequence "1" ++ word ++ Colour.off ++ controlSequence "22"

end Osclan
