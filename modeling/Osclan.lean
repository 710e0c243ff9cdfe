import Osclan.Analysis
import Osclan.Assembly
import Osclan.Assembly.Generate
import Osclan.Calendar
import Osclan.Colour
import Osclan.Command
import Osclan.Compile
import Osclan.Data
import Osclan.Data.Json
import Osclan.Data.Yaml
import Osclan.Dump
import Osclan.FileSystem
import Osclan.Instruction
import Osclan.Main
import Osclan.Name
import Osclan.Program
import Osclan.Program.Grammar
import Osclan.Program.Tree
import Osclan.Proofs.Acceptance
import Osclan.Proofs.Activation
import Osclan.Proofs.Annotation
import Osclan.Proofs.AnnotationSite
import Osclan.Proofs.ArtifactFrame
import Osclan.Proofs.ArtifactPath
import Osclan.Proofs.ArtifactSet
import Osclan.Proofs.Blocks
import Osclan.Proofs.BodyWalk
import Osclan.Proofs.CallingConvention
import Osclan.Proofs.CodeLayout
import Osclan.Proofs.ColourErasure
import Osclan.Proofs.CompositeSize
import Osclan.Proofs.Concatenation
import Osclan.Proofs.CorrectPrefix
import Osclan.Proofs.CursorScan
import Osclan.Proofs.CutFronts
import Osclan.Proofs.CutPlaces
import Osclan.Proofs.DeclaredVariables
import Osclan.Proofs.Demangling
import Osclan.Proofs.Derivation
import Osclan.Proofs.Disassembly
import Osclan.Proofs.Effect
import Osclan.Proofs.FileChange
import Osclan.Proofs.FileRun
import Osclan.Proofs.GlobalScope
import Osclan.Proofs.GlobalTable
import Osclan.Proofs.Hygiene
import Osclan.Proofs.ItemWalk
import Osclan.Proofs.LeafSum
import Osclan.Proofs.Ledger
import Osclan.Proofs.LetterCase
import Osclan.Proofs.LexFaults
import Osclan.Proofs.Lexeme
import Osclan.Proofs.LexerLaws
import Osclan.Proofs.LexicalScope
import Osclan.Proofs.LikeRuns
import Osclan.Proofs.Likeness
import Osclan.Proofs.LineEnd
import Osclan.Proofs.Linking
import Osclan.Proofs.LiteralStore
import Osclan.Proofs.Lookup
import Osclan.Proofs.Machine
import Osclan.Proofs.MaximalMunch
import Osclan.Proofs.Meaning
import Osclan.Proofs.Name
import Osclan.Proofs.Outcome
import Osclan.Proofs.Parsing
import Osclan.Proofs.PathWalk
import Osclan.Proofs.PointerStore
import Osclan.Proofs.Printing
import Osclan.Proofs.ProcedureTable
import Osclan.Proofs.Progress
import Osclan.Proofs.Promptness
import Osclan.Proofs.ReaderComplete
import Osclan.Proofs.ReaderPrompt
import Osclan.Proofs.ReaderSound
import Osclan.Proofs.Reading
import Osclan.Proofs.RecordedSize
import Osclan.Proofs.Relocation
import Osclan.Proofs.Renaming
import Osclan.Proofs.Resolution
import Osclan.Proofs.ReturnDiscipline
import Osclan.Proofs.RoundTrip
import Osclan.Proofs.ScanEnds
import Osclan.Proofs.ScopeArchive
import Osclan.Proofs.ScopeBalance
import Osclan.Proofs.ScopeFrame
import Osclan.Proofs.ScopeRestore
import Osclan.Proofs.ScopeRuns
import Osclan.Proofs.SecondRun
import Osclan.Proofs.Segmentation
import Osclan.Proofs.Sequencing
import Osclan.Proofs.SizeErasure
import Osclan.Proofs.SizeOverflow
import Osclan.Proofs.SlotLookup
import Osclan.Proofs.SourceNames
import Osclan.Proofs.SourceSafety
import Osclan.Proofs.Spelling
import Osclan.Proofs.StageContract
import Osclan.Proofs.Step
import Osclan.Proofs.StoreCheck
import Osclan.Proofs.StoreRuns
import Osclan.Proofs.TableOrder
import Osclan.Proofs.Tracking
import Osclan.Proofs.TreeValues
import Osclan.Proofs.TypeTable
import Osclan.Proofs.Weakening
import Osclan.Proofs.WrittenPaths
import Osclan.Scope
import Osclan.Table
import Osclan.Text.Alphabetic
import Osclan.Text.Blank
import Osclan.Text.Numeral
import Osclan.Text.Numeric
import Osclan.Text.Ranges
import Osclan.Text.Word
import Osclan.Token
import Osclan.Token.Cursor
import Osclan.Token.Lexer
import Osclan.Tree
import Osclan.Ty
