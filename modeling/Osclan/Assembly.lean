/-
  File:      Osclan/Assembly.lean
  Subject:   Assembly as a list of lines.
-/
import Osclan.Instruction

namespace Osclan

/-- A line of assembly. -/
inductive Line where
  | directive (text : String)
  | label (name : String)
  | inst (i : Instruction)
  | comment (text : String)
  | blank
  deriving DecidableEq, Repr

namespace Line

/-- A line as assembler text. -/
def text : Line → String
  | .directive text => text
  | .label name => name ++ ":"
  | .inst i => "\t" ++ i.text
  | .comment text => "; " ++ text
  | .blank => ""

/-- A line in colours; an instruction is set in by four blanks. -/
def spans : Line → List Span
  | .directive text => [.inColour .cyan text]
  | .label name => [.inColour .magenta name, .plain ":"]
  | .inst i => .plain "    " :: i.spans
  | .comment text => [.inColour .green ("; " ++ text)]
  | .blank => []

/-- A line as terminal text. -/
def painted (l : Line) : String := Span.paint l.spans

end Line

/-- Assembly: its lines in order. -/
abbrev Assembly := List Line

namespace Assembly

/-- The assembler source, one line of text for each line. -/
def text (asm : Assembly) : String := String.join (asm.map fun l => l.text ++ "\n")

/-- The source in colours. -/
def painted (asm : Assembly) : String := String.join (asm.map fun l => l.painted ++ "\n")

end Assembly

end Osclan
