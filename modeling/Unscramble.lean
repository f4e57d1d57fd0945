import Unscramble.Class.Basic
import Unscramble.Annotation
import Unscramble.Binary.Annotations
import Unscramble.Binary.Body
import Unscramble.Binary.ClassFile
import Unscramble.Binary.Entry
import Unscramble.Binary.Form
import Unscramble.Binary.InstructionReader
import Unscramble.Binary.Layout
import Unscramble.Binary.Malformation
import Unscramble.Binary.ModifiedUtf8
import Unscramble.Binary.Pool
import Unscramble.Binary.PoolFormat
import Unscramble.Binary.Reader
import Unscramble.Body
import Unscramble.Checksum
import Unscramble.Codebase
import Unscramble.CommandLine
import Unscramble.Constant
import Unscramble.Decimal
import Unscramble.Descriptor
import Unscramble.Error
import Unscramble.Flow.Blocks
import Unscramble.Flow.Normal
import Unscramble.Flow.Search
import Unscramble.Idiom.DynamicCall
import Unscramble.Idiom.Monitor
import Unscramble.Idiom.OpaquePredicate
import Unscramble.Idiom.Shift
import Unscramble.Idiom.Tracing
import Unscramble.Instruction
import Unscramble.Jar
import Unscramble.Listing
import Unscramble.Listing.Chain
import Unscramble.Main
import Unscramble.Naming.Assignment
import Unscramble.Naming.Family
import Unscramble.Naming.InPlace
import Unscramble.Naming.Policy
import Unscramble.Naming.Relocation
import Unscramble.Naming.Renaming
import Unscramble.Naming.Table
import Unscramble.Opcode
import Unscramble.Packing.Bzip
import Unscramble.Packing.Inflate
import Unscramble.Packing.Lzma
import Unscramble.Packing.Xz
import Unscramble.Packing.Stream
import Unscramble.Packing.Zstd.Frame
import Unscramble.Packing.Zstd.Literals
import Unscramble.Packing.Zstd.Sequences
import Unscramble.Packing.Zstd.Table
import Unscramble.Partition
import Unscramble.Pattern.Automaton
import Unscramble.Pattern.Basic
import Unscramble.Pattern.CharSet
import Unscramble.Pattern.Regex
import Unscramble.Pattern.Syntax
import Unscramble.Session.Basic
import Unscramble.Session.Host
import Unscramble.Session.Disk
import Unscramble.Slot.Reaching
import Unscramble.Slot.Split
import Unscramble.Stage.Basic
import Unscramble.Stage.Bodies
import Unscramble.Stage.Hook
import Unscramble.Stage.Members
import Unscramble.Stage.Plan
import Unscramble.Text.Basic
import Unscramble.Text.Letter
import Unscramble.Text.Printable
import Unscramble.Tidy.Order
import Unscramble.Tidy.StaticFields
import Unscramble.Tidy.StaticMethods
import Unscramble.Tidy.Uncalled
import Unscramble.Zip.Basic
import Unscramble.Zip.Extra
import Unscramble.Zip.Archive
import Unscramble.Proofs.Flow.Settling
import Unscramble.Proofs.Flow.DeadCode
import Unscramble.Proofs.Flow.Normal
import Unscramble.Proofs.Flow.Blocks
import Unscramble.Proofs.Flow.BlockOrder
import Unscramble.Proofs.Flow.Placement
import Unscramble.Proofs.Flow.SecondRound
import Unscramble.Proofs.Partition
import Unscramble.Proofs.Slot.Reaching
import Unscramble.Proofs.Slot.Grouping
import Unscramble.Proofs.Slot.Split
import Unscramble.Proofs.Slot.Subroutines
import Unscramble.Proofs.Binary.ModifiedUtf8
import Unscramble.Proofs.Binary.Pool
import Unscramble.Proofs.Binary.Reading
import Unscramble.Proofs.Binary.PoolFormat
import Unscramble.Proofs.Binary.Writing
import Unscramble.Proofs.Binary.Annotations
import Unscramble.Proofs.Binary.Form
import Unscramble.Proofs.Binary.Layout
import Unscramble.Proofs.Binary.Assembly
import Unscramble.Proofs.Binary.Body
import Unscramble.Proofs.Binary.ClassFile
import Unscramble.Proofs.Binary.Faithful
import Unscramble.Proofs.Binary.CodeArray
import Unscramble.Proofs.Naming.Mention
import Unscramble.Proofs.Naming.Stability
import Unscramble.Proofs.Naming.Issuing
import Unscramble.Proofs.Naming.Resolution
import Unscramble.Proofs.Labels.Edits
import Unscramble.Proofs.Labels.Idioms
import Unscramble.Proofs.Labels.Rewrites
import Unscramble.Proofs.Lists
import Unscramble.Proofs.Naming.Relocation
import Unscramble.Proofs.Stage.Hooks
import Unscramble.Proofs.Stage.Members
import Unscramble.Proofs.Binary.Limits
import Unscramble.Proofs.Labels.Stages
import Unscramble.Proofs.Tidy.StaticFields
import Unscramble.Proofs.Tidy.StaticMethods
import Unscramble.Proofs.Naming.Precedence
import Unscramble.Proofs.Stage.Confinement
import Unscramble.Proofs.Stage.Course
import Unscramble.Proofs.Chain.Links
import Unscramble.Proofs.Chain.Edits
import Unscramble.Proofs.Chain.Sequence
import Unscramble.Proofs.Naming.Transfer
import Unscramble.Proofs.Naming.AllOrNothing
import Unscramble.Proofs.Binary.Insertions
import Unscramble.Proofs.Binary.OriginalPool
import Unscramble.Proofs.Pattern.Searching
import Unscramble.Proofs.Pattern.Simplifying
import Unscramble.Proofs.Pattern.Spelling
import Unscramble.Proofs.Pattern.Parsing
import Unscramble.Proofs.Pattern.Meaning
import Unscramble.Proofs.Pattern.Runs
import Unscramble.Proofs.Pattern.Places
import Unscramble.Proofs.Stage.Declarations
import Unscramble.Proofs.Stage.Idioms
import Unscramble.Proofs.Stage.LockCopies
import Unscramble.Proofs.Stage.Removals
import Unscramble.Proofs.Quoting
import Unscramble.Proofs.Binary.Encoding
import Unscramble.Proofs.Binary.Offsets
import Unscramble.Proofs.Slot.Resplit
import Unscramble.Proofs.Stage.Slots
import Unscramble.Proofs.Flow.PostOrder
import Unscramble.Proofs.Slot.Allocation
import Unscramble.Proofs.Stage.Settling
import Unscramble.Proofs.Machine
import Unscramble.Proofs.Stage.LockRuns
import Unscramble.Proofs.Stage.Obstructors
import Unscramble.Proofs.Stage.CrashReports
import Unscramble.Proofs.Stage.LockRanges
import Unscramble.Proofs.Tidy.UnusedFields
import Unscramble.Proofs.Decimal
import Unscramble.Proofs.Shape
import Unscramble.Proofs.Binary.Renaming
import Unscramble.Proofs.Descriptor.Types
import Unscramble.Proofs.Stage.ShiftDistances
import Unscramble.Proofs.Tidy.LineMarkers
import Unscramble.Proofs.Binary.Pushes
import Unscramble.Proofs.Binary.SlotIndices
import Unscramble.Proofs.OperandStack
import Unscramble.Proofs.Stage.CallStubs
