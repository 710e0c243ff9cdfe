/-
  File:      Osclan/Compile.lean
  Subject:   One compilation: from a source file to the files of a run.

  What a run writes depends on the source alone, so it is computed first (`build`): the artifacts of
  every stage that was reached, in order, and the outcome. Around that stand the file operations:
  the source is read, the output directory made ready, the artifacts written one after the other.

  An output directory that holds the source is refused. In one that exists, only the earlier
  artifacts of the same source are removed.

  * `Artifact` -- the files of a run and their names;
  * `build` -- the artifacts and the outcome of a source text;
  * `MonadFiles` -- the file operations a run needs, on `FileSystem` or elsewhere;
  * `compile` -- the run.
-/
import Osclan.Analysis
import Osclan.Assembly.Generate
import Osclan.Dump
import Osclan.FileSystem
import Osclan.Program.Grammar
import Osclan.Program.Tree
import Osclan.Token.Lexer

namespace Osclan

/-! ## 1. Artifacts -/

/-- The files of a run. -/
inductive Artifact where
  | tokens | treeBefore | treeText | treeAfter | scopes | assembly
  deriving DecidableEq, Repr

namespace Artifact

/-- All artifacts, in the order of the stages that make them. -/
def all : List Artifact := [.tokens, .treeBefore, .treeText, .treeAfter, .scopes, .assembly]

/-- What stands after the stem in the name of the file. -/
def ending : Artifact → String
  | .tokens => "tokens.json"
  | .treeBefore => "ast-pre-sa.json"
  | .treeText => "ast-pre-sa.txt"
  | .treeAfter => "ast-post-sa.json"
  | .scopes => "scopes.yaml"
  | .assembly => "s"

/-- The name of the artifact of a source with the given stem. -/
def fileName (stem : String) (a : Artifact) : String := stem ++ "." ++ a.ending

/-- Is the name that of an artifact of the source? -/
def isNameOf (stem name : String) : Bool := all.any fun a => name == a.fileName stem

end Artifact

/-! ## 2. Outcomes -/

/-- Why a run fails. A fault comes with the warnings raised before it. -/
inductive CompileError where
  | io (e : IoError)
  | outputContainsInput (dir : String)
  | lex (e : LexError)
  | parse (e : ParseError)
  | fault (e : Fault) (warnings : List Warning)
  deriving DecidableEq, Repr

/-- The message for the user. -/
def CompileError.message : CompileError → String
  | .io e => "IO error: " ++ e.message
  | .outputContainsInput dir => "Output directory '" ++ dir ++ "' contains the source file"
  | .lex e => e.message
  | .parse e => e.message
  | .fault e _ => e.message

/-- Why a run ends early: an error, or a size that leaves the word. -/
inductive CompileStop where
  | error (e : CompileError)
  | sizeOverflow
  deriving DecidableEq, Repr

/-- What a source gives besides its artifacts. -/
structure Compiled where
  assembly : Assembly
  warnings : List Warning
  deriving DecidableEq, Repr

/-- The artifacts of a source, in the order they are written, and what came of it. -/
structure Build where
  artifacts : List (Artifact × String)
  result : Except CompileStop Compiled

/-! ## 3. From source to artifacts -/

/-- Artifacts that are kept only on request. -/
def keep (intermediate : Bool) (artifacts : List (Artifact × String)) : List (Artifact × String) :=
  if intermediate then artifacts else []

/-- The stages after the tree has been read. -/
def buildTree (intermediate : Bool) (now : Calendar.Instant) (tree : Node) : Build :=
  match Check.analyze tree Analyzer.fresh with
  | .error (.fault e) s => ⟨[], .error (.error (.fault e s.warnings))⟩
  | .error .sizeOverflow _ => ⟨[], .error .sizeOverflow⟩
  | .ok a _ =>
    let asm := Assembly.ofTree now a.tree
    ⟨keep intermediate [(.treeAfter, a.tree.toData.json), (.scopes, a.scopeTables.yaml)] ++
      [(.assembly, asm.text)], .ok ⟨asm, a.warnings⟩⟩

/-- The stages after the tokens have been read. -/
def buildTokens (intermediate : Bool) (now : Calendar.Instant) (ts : List Token) : Build :=
  match Program.ofTokens ts with
  | .error e => ⟨[], .error (.error (.parse e))⟩
  | .ok p =>
    let tree := p.toNode
    let rest := buildTree intermediate now tree
    { rest with
      artifacts := keep intermediate [(.treeBefore, tree.toData.json), (.treeText, tree.text)] ++
        rest.artifacts }

/-- The artifacts of a source text, and what comes of it. -/
def build (file source : String) (intermediate : Bool) (now : Calendar.Instant) : Build :=
  match tokenize file source with
  | .error e => ⟨[], .error (.error (.lex e))⟩
  | .ok ts =>
    let rest := buildTokens intermediate now ts
    { rest with
      artifacts := keep intermediate [(.tokens, (Data.list (ts.map Token.toData)).json)] ++
        rest.artifacts }

/-! ## 4. File operations -/

/-- The file operations a run needs. Paths are written paths. -/
class MonadFiles (m : Type → Type) where
  readText : String → m (Except IoError String)
  pathExists : String → m Bool
  isFile : String → m Bool
  /-- The names that lead from the root to what a path names, free of links. -/
  realPlace : String → m (Except IoError Place)
  list : String → m (Except IoError (List String))
  removeFile : String → m (Except IoError Unit)
  createDirs : String → m (Except IoError Unit)
  writeText : String → String → m (Except IoError Unit)

/-- A change of a file system as a step: a failed change changes nothing. -/
def FileSystem.change (f : FileSystem → Except IoError FileSystem) :
    StateM FileSystem (Except IoError Unit) := fun fs =>
  match f fs with
  | .ok fs => (.ok (), fs)
  | .error e => (.error e, fs)

/-- Files that are a value: a run takes a file system to another one. -/
instance : MonadFiles (StateM FileSystem) where
  readText path := fun fs => (fs.readText path, fs)
  pathExists path := fun fs => (fs.pathExists path, fs)
  isFile path := fun fs => (fs.isFile path, fs)
  realPlace path := fun fs => (fs.realPlace path, fs)
  list path := fun fs => (fs.list path, fs)
  removeFile path := FileSystem.change (·.removeFile path)
  createDirs path := fun fs => fs.createDirs path
  writeText path text := FileSystem.change (·.writeText path text)

/-! ## 5. The run -/

/-- What a run is asked to do. -/
structure Options where
  input : String
  output : String
  /-- Keep tokens, trees and scope tables next to the assembly. -/
  intermediate : Bool
  deriving DecidableEq, Repr

/-- What a good run gives; the paths are those written, in order. -/
structure Output where
  assembly : Assembly
  warnings : List Warning
  written : List String
  deriving DecidableEq, Repr

section Run

variable {m : Type → Type} [Monad m] [MonadFiles m]

/-- A file operation as a step of a run. -/
def fileStep {α : Type} (op : m (Except IoError α)) : ExceptT CompileStop m α := do
  match ← op with
  | .ok a => return a
  | .error e => throw (.error (.io e))

/-- Removes those of the named files in a directory that are earlier artifacts of the source. -/
def removeArtifacts (dir stem : String) : List String → ExceptT CompileStop m Unit
  | [] => return ()
  | name :: names => do
    let path := PathText.join dir name
    if (← (MonadFiles.isFile path : m Bool)) && Artifact.isNameOf stem name then
      fileStep (MonadFiles.removeFile path)
    removeArtifacts dir stem names

/-- Makes the output directory ready. -/
def prepare (o : Options) (stem : String) : ExceptT CompileStop m Unit := do
  if ← (MonadFiles.pathExists o.output : m Bool) then
    let input ← fileStep (MonadFiles.realPlace o.input)
    let output ← fileStep (MonadFiles.realPlace o.output)
    if output.isPrefixOf input then
      throw (.error (.outputContainsInput o.output))
    let names ← fileStep (MonadFiles.list o.output)
    removeArtifacts o.output stem names
  else
    fileStep (MonadFiles.createDirs o.output)

/-- Writes artifacts and gives their paths. -/
def writeArtifacts (dir stem : String) :
    List (Artifact × String) → ExceptT CompileStop m (List String)
  | [] => return []
  | (a, text) :: rest => do
    let path := PathText.join dir (a.fileName stem)
    fileStep (MonadFiles.writeText path text)
    return path :: (← writeArtifacts dir stem rest)

/-- The stem of a source whose path has none. -/
def defaultStem : String := "out"

/-- One compilation at the given moment. -/
def compile (now : Calendar.Instant) (o : Options) : ExceptT CompileStop m Output := do
  let source ← fileStep (MonadFiles.readText o.input)
  let stem := (PathText.stem? o.input).getD defaultStem
  prepare o stem
  let b := build o.input source o.intermediate now
  let written ← writeArtifacts o.output stem b.artifacts
  match b.result with
  | .ok c => return ⟨c.assembly, c.warnings, written⟩
  | .error e => throw e

end Run

end Osclan
