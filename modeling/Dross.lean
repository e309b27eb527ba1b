import Dross.Library.Transition
import Dross.Library.AssocList
import Dross.Library.Calendar
import Dross.Library.OrderedMap
import Dross.Library.Span
import Dross.Library.MachineInt
import Dross.Library.Monitor
import Dross.Library.Turns
import Dross.Library.Numeral
import Dross.Type.Digits
import Dross.Type.NumberText
import Dross.Type.CanonicalText
import Dross.Type.Spelling
import Dross.Type.Expansion
import Dross.Type.Canonicalization
import Dross.Type.NormalForm
import Dross.Type.Comparison
import Dross.Type.Addition
import Dross.Type.Multiplication
import Dross.Type.Number
import Dross.Type.NumberOrder
import Dross.Type.Division
import Dross.Type.DecimalDigits
import Dross.Type.Quotient
import Dross.Type.ExactDivision
import Dross.Type.Truncation
import Dross.Type.Modulo
import Dross.Type.NumberStorage
import Dross.Type.IntConversion
import Dross.Type.Timestamp
import Dross.Type.TimestampArithmetic
import Dross.Type.ClockDuration
import Dross.Type.ClockTimePoint
import Dross.Type.TimestampStorage
import Dross.Type.TimestampText
import Dross.Type.TimestampGrammar
import Dross.Type.TextCalls
import Dross.Type.Value
import Dross.Library.InPlaceErase
import Dross.Type.ArrayRemove
import Dross.Format.Utf8
import Dross.Format.TableTree
import Dross.Format.Cursor
import Dross.Format.Utf8Sequences
import Dross.Format.StringForms
import Dross.Format.TomlWritable
import Dross.Format.ScalarForms
import Dross.Format.NumberForms
import Dross.Format.DigitRuns
import Dross.Format.PrefixedIntegers
import Dross.Format.KeyForms
import Dross.Format.TimestampForms
import Dross.Format.StringReader
import Dross.Format.ScalarReader
import Dross.Format.TomlParser
import Dross.Format.TomlSerializer
import Dross.Format.ReaderProgress
import Dross.Format.ValueProgress
import Dross.Format.ParserCalls
import Dross.Format.TableLayout
import Dross.Format.TableRefinement
import Dross.Format.Placement
import Dross.Format.TableRules
import Dross.Format.TableAcceptance
import Dross.Format.TableDefinition
import Dross.Format.DocumentStatements
import Dross.Format.TableMerge
import Dross.Format.SectionOrder
import Dross.Format.DocumentContents
import Dross.Format.DecimalText
import Dross.Library.Lockstep
import Dross.Format.LineEnds
import Dross.Format.LineEndReaders
import Dross.Format.LineEndings
import Dross.Format.ValueForms
import Dross.Format.TableFrames
import Dross.Format.Normalization
import Dross.Format.ReportedPositions
import Dross.Thread.Operation
import Dross.Thread.OperationQueue
import Dross.Thread.QueueRun
import Dross.Thread.QueueInvariant
import Dross.Thread.QueueAdmission
import Dross.Thread.QueueCancellation
import Dross.Thread.QueueGuarantees
import Dross.Thread.QueueOrder
import Dross.Thread.QueueWaits
import Dross.Thread.QueueWakeups
import Dross.Thread.QueueWorkers
import Dross.Thread.QueueSweeps
import Dross.Thread.WorkerTokens
import Dross.Thread.WorkerPosts
import Dross.Thread.QueueDrains
import Dross.Thread.TimerSchedule
import Dross.Thread.Runloop
import Dross.Thread.RunloopReturns
import Dross.Thread.RunloopTurns
import Dross.Thread.RunloopHistory
import Dross.Thread.Passes
import Dross.Thread.TimerLifecycle
import Dross.Thread.TimerGuarantees
import Dross.Thread.TimerFires
import Dross.Thread.RunPending
import Dross.Thread.PassFairness
import Dross.Thread.RunOneFairness
import Dross.Thread.DeadlineBounds
import Dross.Thread.SchedulePass
import Dross.Thread.NextWakes
import Dross.Thread.NestedRuns
import Dross.Thread.ThreadRecords
import Dross.Thread.ThreadInvariant
import Dross.Thread.ThreadSteps
import Dross.Thread.ThreadRegistry
import Dross.Thread.ThreadJoins
import Dross.Thread.ThreadLoops
import Dross.Thread.QueueShutdown
import Dross.Thread.WorkerProgress
import Dross.Thread.QueueRefinement
