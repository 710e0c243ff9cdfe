/-
  File:      Osclan/Main.lean
  Subject:   The program: the command line on the files of the machine.

  * `IoError.ofSystem` -- the causes of failed calls of the system;
  * the instance of `MonadFiles` for `IO`;
  * `main` -- one run, at the present moment.
-/
import Osclan.Command
import Std.Time.DateTime.Timestamp

namespace Osclan

/-- The cause behind an error code of the system, which some calls give with the sign changed. -/
def IoError.ofCode (code : UInt32) (details : String) : IoError :=
  match min code.toNat (-code).toNat with
  | 2 => .notFound
  | 17 => .alreadyExists
  | 20 => .notADirectory
  | 21 => .isADirectory
  | 36 => .nameTooLong
  | 40 => .tooManyLinks
  | n => .other (details ++ " (os error " ++ n.repr ++ ")")

/-- The cause of a failed call of the system. -/
def IoError.ofSystem : IO.Error → IoError
  | .alreadyExists _ c d | .interrupted _ c d | .noFileOrDirectory _ c d | .invalidArgument _ c d
  | .permissionDenied _ c d | .resourceExhausted _ c d | .inappropriateType _ c d
  | .noSuchThing _ c d | .otherError c d | .resourceBusy c d | .resourceVanished c d
  | .unsupportedOperation c d | .hardwareFault c d | .unsatisfiedConstraints c d
  | .illegalOperation c d | .protocolError c d | .timeExpired c d => .ofCode c d
  | .unexpectedEof => .other "unexpected end of file"
  | .userError text => .other text

/-- A call of the system with its failure as a value. -/
def attempt {α : Type} (call : IO α) : IO (Except IoError α) := do
  match ← call.toBaseIO with
  | .ok a => return .ok a
  | .error e => return .error (.ofSystem e)

/-- The path leads to a directory. -/
def isDirectory (path : String) : IO Bool := do
  match ← attempt (System.mkFilePath [path]).metadata with
  | .ok data => return data.type == .dir
  | .error _ => return false

/-- A path and those of the directories above it, the nearest first. -/
def PathText.ancestors (path : String) : List String :=
  let names := PathText.names path
  let root := if PathText.isAbsolute path then "/" else ""
  path :: (List.range names.length).tail.reverse.map fun n =>
    root ++ "/".intercalate (names.take n)

/-- Makes the first of the directories, after those that follow it if they are missing. -/
def createFirst : List String → IO (Except IoError Unit)
  | [] => return .ok ()
  | path :: above => do
    let orDirectory (e : IoError) : IO (Except IoError Unit) := do
      if ← isDirectory path then return .ok () else return .error e
    match ← attempt (IO.FS.createDir path) with
    | .ok () => return .ok ()
    | .error .notFound =>
      match ← createFirst above with
      | .error e => return .error e
      | .ok () =>
        match ← attempt (IO.FS.createDir path) with
        | .ok () => return .ok ()
        | .error e => orDirectory e
    | .error e => orDirectory e

/-- The files of the system. -/
instance : MonadFiles IO where
  readText path := do
    match ← attempt (IO.FS.readBinFile path) with
    | .error e => return .error e
    | .ok content =>
      match String.fromUTF8? content with
      | some text => return .ok text
      | none => return .error .notUtf8
  pathExists path := (System.mkFilePath [path]).pathExists
  isFile path := do
    match ← attempt (System.mkFilePath [path]).metadata with
    | .ok data => return data.type == .file
    | .error _ => return false
  realPlace path := do
    return (← attempt (IO.FS.realPath path)).map fun real => PathText.names real.toString
  list path := do
    return (← attempt (System.mkFilePath [path]).readDir).map fun entries =>
      entries.toList.map fun entry => entry.fileName
  removeFile path := attempt (IO.FS.removeFile path)
  createDirs path :=
    if path = "" then return .ok () else createFirst (PathText.ancestors path)
  writeText path text := attempt (IO.FS.writeFile path text)

/-- What stands on standard error beside a report without text. -/
def complaint (r : Command.Report) : String :=
  if r.exitCode = 2 then "usage: oscc [OPTIONS] <INPUT>; for more information, try '--help'\n"
  else if r.exitCode = 101 then "the size of a type does not fit in 64 bits\n"
  else ""

end Osclan

/-- Runs the command, prints its report, and ends with its exit code. -/
def main (args : List String) : IO UInt32 := do
  let now ← Std.Time.Timestamp.now
  let seconds := now.toSecondsSinceUnixEpoch.val
  let report ← (Osclan.Command.run seconds args : IO Osclan.Command.Report)
  IO.print report.text
  IO.eprint (Osclan.complaint report)
  return report.exitCode
