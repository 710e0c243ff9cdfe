/-
  File:      Osclan/Instruction.lean
  Subject:   The instructions of the target, and their text.

  The target is the 64-bit ARM instruction set, of which a program needs six instructions. Each has
  a mnemonic and operands; the text puts a tab between them, the coloured form pads the mnemonic.
-/
import Osclan.Colour

namespace Osclan

/-! ## 1. Registers and operands -/

/-- A general purpose register or the stack pointer. -/
inductive Reg where
  | x (n : Fin 31)
  | sp
  deriving DecidableEq, Repr

namespace Reg

/-- The frame pointer. -/
def fp : Reg := .x 29

/-- The link register. -/
def lr : Reg := .x 30

/-- The register that holds the number of a system call. -/
def syscall : Reg := .x 16

/-- A register as assembler text. -/
def text : Reg → String
  | .x n => "x" ++ n.val.repr
  | .sp => "sp"

end Reg

/-- The second operand of a move. -/
inductive Operand where
  | reg (r : Reg)
  | imm (n : UInt64)
  deriving DecidableEq, Repr

/-- An operand as assembler text. -/
def Operand.text : Operand → String
  | .reg r => r.text
  | .imm n => "#" ++ n.toNat.repr

/-- Where a pair is loaded or stored: the base register moves by the offset before or after the
    access. -/
inductive Address where
  | preIndex (base : Reg) (offset : Int64)
  | postIndex (base : Reg) (offset : Int64)
  deriving DecidableEq, Repr

/-- An address as assembler text. -/
def Address.text : Address → String
  | .preIndex base offset => "[" ++ base.text ++ ", #" ++ offset.toInt.repr ++ "]!"
  | .postIndex base offset => "[" ++ base.text ++ "], #" ++ offset.toInt.repr

/-! ## 2. Instructions -/

/-- The instructions that are generated. -/
inductive Instruction where
  | mov (dest : Reg) (value : Operand)
  | ldp (first second : Reg) (address : Address)
  | stp (first second : Reg) (address : Address)
  | bl (label : String)
  | ret
  | svc (number : UInt16)
  deriving DecidableEq, Repr

namespace Instruction

/-- The first word of an instruction. -/
def mnemonic : Instruction → String
  | .mov .. => "mov"
  | .ldp .. => "ldp"
  | .stp .. => "stp"
  | .bl _ => "bl"
  | .ret => "ret"
  | .svc _ => "svc"

/-- A number in hexadecimal, with its mark. -/
def hexText (n : Nat) : String := "#0x" ++ String.ofList (Nat.toDigits 16 n)

/-- What stands behind the mnemonic. -/
def operands : Instruction → String
  | .mov dest value => dest.text ++ ", " ++ value.text
  | .ldp first second address => first.text ++ ", " ++ second.text ++ ", " ++ address.text
  | .stp first second address => first.text ++ ", " ++ second.text ++ ", " ++ address.text
  | .bl label => label
  | .ret => ""
  | .svc number => hexText number.toNat

/-- An instruction as assembler text. -/
def text (i : Instruction) : String :=
  if i.operands = "" then i.mnemonic else i.mnemonic ++ "\t" ++ i.operands

/-- The colour of the operands: labels and system call numbers stand out. -/
def operandColour : Instruction → Colour
  | .bl _ => .magenta
  | .svc _ => .yellow
  | _ => .blue

/-- A text filled up with blanks on the right. -/
def padRight (width : Nat) (text : String) : String :=
  text ++ String.ofList (List.replicate (width - text.length) ' ')

/-- An instruction in colours. -/
def spans (i : Instruction) : List Span :=
  [.inColour .red (padRight 6 i.mnemonic), .inColour i.operandColour i.operands]

end Instruction

end Osclan
