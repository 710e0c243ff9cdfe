/-
  File:      Osclan/Assembly/Generate.lean
  Subject:   From a tree to assembly.

  The text begins with a header and an entry stub that calls the main procedure and leaves the
  process. Each procedure at the top of the tree then gets a label and a frame around its calls. The
  stub needs a main procedure to call, so an empty one is added where the tree has none.
-/
import Osclan.Assembly
import Osclan.Calendar
import Osclan.Name
import Osclan.Tree

namespace Osclan.Assembly

/-! ## 1. Frames and calls -/

/-- Opens a frame: saves the link register and the frame pointer. -/
def prologue : List Instruction :=
  [.stp .lr .fp (.preIndex .sp (-16)), .mov .fp (.reg .sp)]

/-- Closes the frame and returns. -/
def epilogue : List Instruction :=
  [.mov .sp (.reg .fp), .ldp .lr .fp (.postIndex .sp 16), .ret]

mutual

/-- The calls of a tree: those below a node come before its own. -/
def calls : Node → List Instruction
  | ⟨l, children⟩ =>
    callsAll children ++ (if l.kind = .call then [.bl (Name.label l.value)] else [])

/-- The calls of some trees, one tree after the other. -/
def callsAll : List Node → List Instruction
  | [] => []
  | n :: rest => calls n ++ callsAll rest

end

/-- A labelled frame around some calls. -/
def frame (name : String) (body : List Instruction) : List Line :=
  .label (Name.label name) :: ((prologue ++ body ++ epilogue).map .inst ++ [.blank])

/-! ## 2. The whole text -/

/-- The procedure that is called first. -/
def mainName : String := "main"

/-- The number of the system call that ends a process. -/
def exitCall : UInt64 := 1

/-- The first lines: when the file was made, and where it is entered. -/
def header (now : Calendar.Instant) : List Line :=
  [.comment ("Generated file on " ++ Calendar.text now), .directive ".global _start",
   .directive ".align 2", .blank]

/-- The entry stub. -/
def start : List Line :=
  [.label "_start", .inst (.bl (Name.label mainName)), .inst (.mov .syscall (.imm exitCall)),
   .inst (.svc 0x80), .blank]

/-- The procedures at the top of a tree. -/
def procedures (tree : Node) : List Node := tree.childrenOf .procedure

/-- The assembly of a tree, made at the given moment. -/
def ofTree (now : Calendar.Instant) (tree : Node) : Assembly :=
  let procs := procedures tree
  let added := if procs.any (·.value == mainName) then [] else frame mainName []
  header now ++ start ++ procs.flatMap (fun p => frame p.value (callsAll p.children)) ++ added

end Osclan.Assembly
