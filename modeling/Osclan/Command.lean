/-
  File:      Osclan/Command.lean
  Subject:   The command line: arguments, and what is printed.

  Arguments are read from left to right and the first that settles the matter wins: a wrong one ends
  in a usage error, `--help` and `--version` act at once. Flags may share one dash; an option's
  value may be attached, after `=` or not, or be the next argument, which then must not look like an
  option. After `--` every argument is a path.
-/
import Osclan.Colour
import Osclan.Compile

namespace Osclan

/-! ## 1. Arguments -/

/-- What a command line asks for. -/
inductive Command where
  | help
  | version
  | compile (options : Options) (verbose : Bool)
  deriving DecidableEq, Repr

namespace Command

/-- What the arguments so far have said. -/
structure Said where
  input : Option String := none
  output : Option String := none
  intermediate : Bool := false
  verbose : Bool := false

/-- What an option does. -/
inductive Opt where
  | intermediate | output | verbose | help | version
  deriving DecidableEq, Repr

/-- The option behind one dash. -/
def shortOpt? (c : Char) : Option Opt :=
  [('i', .intermediate), ('o', .output), ('v', .verbose), ('h', .help), ('V', .version)].lookup c

/-- The option behind two dashes. -/
def longOpt? (name : String) : Option Opt :=
  [("intermediate", .intermediate), ("output", .output), ("verbose", .verbose), ("help", .help),
   ("version", .version)].lookup name

/-- How reading goes on after a flag or an option. -/
inductive Step where
  | wrong
  | done (c : Command)
  | more (s : Said)
  | needsOutput (s : Said)

namespace Said

/-- A path; there is one, and it is not empty. -/
def withInput (s : Said) (path : String) : Step :=
  if path = "" ∨ s.input.isSome then .wrong else .more { s with input := some path }

/-- An output directory; there is at most one, and it is not empty. -/
def withOutput (s : Said) (dir : String) : Step :=
  if dir = "" ∨ s.output.isSome then .wrong else .more { s with output := some dir }

/-- An option without a value. A flag may not be repeated. -/
def withFlag (s : Said) : Opt → Step
  | .intermediate => if s.intermediate then .wrong else .more { s with intermediate := true }
  | .verbose => if s.verbose then .wrong else .more { s with verbose := true }
  | .help => .done .help
  | .version => .done .version
  | .output => .needsOutput s

/-- The characters after one dash: flags, up to an option that takes the rest as its value. -/
def withShorts (s : Said) : List Char → Step
  | [] => .more s
  | c :: rest =>
    match shortOpt? c with
    | none => .wrong
    | some .output =>
      match rest with
      | [] => .needsOutput s
      | '=' :: value => s.withOutput (String.ofList value)
      | value => s.withOutput (String.ofList value)
    | some flag =>
      match s.withFlag flag with
      | .more s => withShorts s rest
      | step => step

/-- What stands after two dashes: a name, with a value after `=` only where one is taken. -/
def withLong (s : Said) (cs : List Char) : Step :=
  match longOpt? (String.ofList (cs.takeWhile (· ≠ '='))), cs.dropWhile (· ≠ '=') with
  | none, _ => .wrong
  | some .output, _ :: value => s.withOutput (String.ofList value)
  | some _, _ :: _ => .wrong
  | some flag, [] => s.withFlag flag

/-- The command of what was said. -/
def command? (s : Said) : Option Command :=
  s.input.map fun input =>
    .compile ⟨input, s.output.getD "output", s.intermediate⟩ s.verbose

end Said

/-- Does an argument look like an option? A single dash does not. -/
def looksLikeOption (arg : String) : Bool :=
  match arg.toList with
  | '-' :: _ :: _ => true
  | _ => false

/-- Paths only. -/
def readPaths (s : Said) : List String → Option Command
  | [] => s.command?
  | arg :: args =>
    match s.withInput arg with
    | .more s => readPaths s args
    | _ => none

/-- Reads the arguments left; none is a usage error. -/
def read (s : Said) : List String → Option Command
  | [] => s.command?
  | arg :: args =>
    match arg.toList with
    | ['-', '-'] => readPaths s args
    | _ =>
      let step := match arg.toList with
        | '-' :: '-' :: cs => s.withLong cs
        | '-' :: c :: cs => s.withShorts (c :: cs)
        | _ => s.withInput arg
      match step with
      | .wrong => none
      | .done c => some c
      | .more s => read s args
      | .needsOutput s =>
        match args with
        | [] => none
        | value :: args =>
          if looksLikeOption value then none
          else match s.withOutput value with
            | .more s => read s args
            | _ => none

/-- The command of a command line; none is a usage error. -/
def ofArgs? (args : List String) : Option Command := read {} args

/-! ## 2. What is printed -/

/-- What `--version` prints. -/
def versionText : String := "oscc 0.1.0\n"

/-- What `--help` prints. -/
def helpText : String :=
  "Compiler front end for the Osclan language\n\n" ++
  "Usage: oscc [OPTIONS] <INPUT>\n\n" ++
  "Arguments:\n" ++
  "  <INPUT>  Source file\n\n" ++
  "Options:\n" ++
  "  -i, --intermediate     Keep intermediate artifacts (tokens, trees, scope tables)\n" ++
  "  -o, --output <OUTPUT>  Output directory. Earlier artifacts of the same source are replaced " ++
  "[default: output]\n" ++
  "  -v, --verbose          Print the generated assembly\n" ++
  "  -h, --help             Print help\n" ++
  "  -V, --version          Print version\n"

/-- A warning as it is reported. -/
def warningLine (w : Warning) : String := badge .yellow "[WARNING]" ++ " " ++ w.message ++ "\n"

/-- The failure of a run as it is reported. -/
def errorLine (e : CompileError) : String := badge .red "[ERROR]" ++ " " ++ e.message ++ "\n"

/-- The report of a good run, with the files it has written. -/
def doneLine (written : List String) : String :=
  badge .green "[DONE]" ++ " wrote " ++ ", ".intercalate written ++ "\n"

/-- The line above and below a listing. -/
def border : String :=
  "+------+------------------------------------------------------------------------\n"

/-- A number in at least four columns. -/
def columnText (n : Nat) : String :=
  let digits := n.repr
  String.ofList (List.replicate (4 - digits.length) ' ') ++ digits

/-- A line of a listing, with its number. -/
def listingLine (number : Nat) (l : Line) : String :=
  Span.paint [.plain "| ", .inColour .cyan (columnText number), .plain " | "] ++ l.painted ++ "\n"

/-- The lines of a listing, counted from `number`. -/
def listingFrom (number : Nat) : Assembly → String
  | [] => ""
  | l :: rest => listingLine number l ++ listingFrom (number + 1) rest

/-- The assembly with numbered lines, between two borders. -/
def listing (asm : Assembly) : String := border ++ listingFrom 1 asm ++ border

/-! ## 3. Running -/

/-- The exit code of a run and the text it prints. -/
structure Report where
  exitCode : UInt32
  text : String
  deriving DecidableEq, Repr

/-- The report of a compilation. -/
def report (verbose : Bool) : Except CompileStop Output → Report
  | .ok o =>
    ⟨0, String.join (o.warnings.map warningLine) ++
      (if verbose then listing o.assembly else "") ++ doneLine o.written⟩
  | .error (.error e) =>
    let warnings := match e with
      | .fault _ warnings => warnings
      | _ => []
    ⟨1, String.join (warnings.map warningLine) ++ errorLine e⟩
  | .error .sizeOverflow => ⟨101, ""⟩

/-- Runs a command line at the given moment. -/
def run {m : Type → Type} [Monad m] [MonadFiles m] (now : Calendar.Instant) (args : List String) :
    m Report := do
  match ofArgs? args with
  | none => return ⟨2, ""⟩
  | some .help => return ⟨0, helpText⟩
  | some .version => return ⟨0, versionText⟩
  | some (.compile options verbose) => return report verbose (← (Osclan.compile now options).run)

end Command

end Osclan
