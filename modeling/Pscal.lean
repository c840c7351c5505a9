import Pscal.Core.Scalar
import Pscal.Bytecode.Chunk
import Pscal.Symbol.Table
import Pscal.Lib.Worklist
import Pscal.Verify.Check
import Pscal.Bytecode.Stream
import Pscal.Lib.Except
import Pscal.Verify.Stream
import Pscal.Verify.Machine
import Pscal.Verify.Walk
import Pscal.Verify.Entries
import Pscal.Verify.Sound
import Pscal.Verify.Rounds
import Pscal.Record.Offsets
import Pscal.Record.Agree
import Pscal.Compiler.Captures
import Pscal.Compiler.CaptureGrowth
import Pscal.Compiler.CapturePropagation
import Pscal.Compiler.CaptureRuns
import Pscal.Compiler.CaptureNests
import Pscal.Compiler.CaptureSettled
import Pscal.Compiler.Peephole
import Pscal.Compiler.PeepholeCode
import Pscal.Compiler.Emit
import Pscal.Compiler.EmitSpec
import Pscal.Compiler.PeepholeTables
import Pscal.Compiler.Sequences
import Pscal.Compiler.Relocation
import Pscal.Lib.Intern
import Pscal.Link.Slots
import Pscal.Link.SlotsSpec
import Pscal.Core.Map
import Pscal.Lib.OrderedMap
import Pscal.Core.MapSpec
import Pscal.Bytecode.Decoders
import Pscal.Lib.Coinduction
import Pscal.VM.DeepEqual
import Pscal.VM.DeepEqualSpec
import Pscal.Compiler.VTableSpec
import Pscal.Compiler.VTableRuns
import Pscal.Interface.Layout
import Pscal.Interface.Tables
import Pscal.Lib.Numbering
import Pscal.Interface.LayoutSpec
import Pscal.Interface.TablesSpec
import Pscal.Interface.Runs
import Pscal.Cache.Codec
import Pscal.Cache.Values
import Pscal.Cache.ValuesSpec
import Pscal.Link.SlotChecks
import Pscal.VM.Integers
import Pscal.VM.IntegersSpec
import Pscal.Lib.Ring
import Pscal.Lib.Transitions
import Pscal.VM.Channel
import Pscal.VM.ChannelSpec
import Pscal.Lib.Counting
import Pscal.VM.Mutexes
import Pscal.VM.MutexesSpec
import Pscal.VM.MutexRuns
import Pscal.VM.Threads
import Pscal.VM.ThreadPool
import Pscal.VM.TaskResults
import Pscal.VM.StopRequests
import Pscal.Lib.Reservation
import Pscal.VM.IdleWorkers
import Pscal.VM.CallFrames
import Pscal.VM.UpvalueBinding
import Pscal.Core.Utf8
import Pscal.Symbol.Buckets
import Pscal.VM.BuiltinRegistry
import Pscal.VM.DeniedEffects
import Pscal.Core.Reals
import Pscal.VM.CallPaths
import Pscal.Cache.Sections
import Pscal.Cache.SectionsSpec
import Pscal.Cache.LineTable
import Pscal.Cache.FunctionsSpec
import Pscal.Cache.Container
import Pscal.Cache.ContainerSpec
import Pscal.Cache.ChunkHash
import Pscal.Cache.ChunkHashSpec
import Pscal.Cache.TracedReaders
import Pscal.Cache.TracedSpec
import Pscal.VM.FxJournal
import Pscal.VM.FxJournalSpec
import Pscal.VM.Elements
import Pscal.VM.ElementsSpec
import Pscal.VM.UnicodeStore
import Pscal.Lib.Fields
import Pscal.Shell.Splitting
import Pscal.Shell.SplittingSpec
import Pscal.VProc.PollWake
import Pscal.VProc.PollWakeSpec
import Pscal.Lib.LexicalPath
import Pscal.Paths.Truncate
import Pscal.Paths.ExpandSpec
import Pscal.Paths.StripSpec
import Pscal.Lib.Quoting
import Pscal.Shell.ArrayLiteral
import Pscal.Shell.ArrayLiteralSpec
import Pscal.Lib.DecimalText
import Pscal.Lib.RightInsertion
import Pscal.Shell.Arrays
import Pscal.Shell.ArraysSpec
import Pscal.Shell.Arithmetic
import Pscal.Shell.ArithmeticTrees
import Pscal.Shell.ArithmeticUntaken
import Pscal.Lexer.Lexer
import Pscal.Lib.TextPositions
import Pscal.Lexer.LexerSpec
import Pscal.Lib.Undo
import Pscal.Shell.Identifiers
import Pscal.Shell.Assignments
import Pscal.Shell.AssignmentsSpec
import Pscal.Shell.ArithmeticGrammar
import Pscal.Shell.ArithmeticReading
import Pscal.Shell.ArithmeticReference
import Pscal.Shell.ArithmeticSuccess
import Pscal.Shell.ArithmeticReferenceSpec
import Pscal.Shell.Slices
import Pscal.Shell.BraceSequence
import Pscal.Paths.MountTable
import Pscal.Tty.Queue
import Pscal.Tty.QueueSpec
import Pscal.Tty.Terminal
import Pscal.Tty.TerminalSpec
import Pscal.Tty.Threads
import Pscal.Tty.ThreadsSpec
import Pscal.Tty.Editor
import Pscal.Tty.EditorSpec
import Pscal.Tty.EditorRuns
import Pscal.Tty.Waiters
import Pscal.Tty.WaitersSpec
import Pscal.Tty.NoStranding
import Pscal.VProc.InprocPipe
import Pscal.VProc.InprocPipeSpec
import Pscal.VProc.InprocPipeRuns
import Pscal.Tty.Stream
import Pscal.Tty.StreamSpec
import Pscal.Tty.StreamRuns
import Pscal.Compiler.Listings
import Pscal.Compiler.Backpatching
import Pscal.Compiler.OpenPlaces
import Pscal.Compiler.StatementsSpec
import Pscal.Compiler.JumpValidation
import Pscal.Compiler.JumpsLand
import Pscal.VM.Comparisons
import Pscal.VM.StackMachine
import Pscal.Compiler.PlacedCode
import Pscal.Compiler.CaseRuns
import Pscal.VM.Ordinals
import Pscal.Compiler.ForLoops
import Pscal.Compiler.ForRuns
import Pscal.Compiler.ConstArrays
import Pscal.Lib.RowMajor
import Pscal.Compiler.ConstArraysSpec
import Pscal.VProc.SessionOutput
import Pscal.VProc.SessionOutputSpec
import Pscal.VM.ComparisonOrder
import Pscal.Core.Preproc
import Pscal.VM.SetsSpec
import Pscal.VM.EnumArithmetic
import Pscal.VM.CallSites
import Pscal.Core.TaggedWordSpec
import Pscal.Compiler.ConstantPool
import Pscal.Compiler.ConstantRanges
import Pscal.VProc.RealTimer
import Pscal.Core.FlatOffsets
import Pscal.Shell.Substrings
