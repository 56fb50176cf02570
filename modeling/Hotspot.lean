import Hotspot.Base.JavaTypes
import Hotspot.Base.Except
import Hotspot.Base.OpenAddressing
import Hotspot.Base.Run
import Hotspot.Base.Cut
import Hotspot.Base.Decoder
import Hotspot.Base.Intervals
import Hotspot.Base.Buffer
import Hotspot.Base.Traced
import Hotspot.Base.WrappingOffsets
import Hotspot.Base.BottomTested
import Hotspot.Base.Tiling
import Hotspot.Base.TreeWalk
import Hotspot.Base.Sections
import Hotspot.Base.Elimination
import Hotspot.Base.MagicDivision
import Hotspot.Utilities.Utf8
import Hotspot.Code.CompressedStream
import Hotspot.Code.RelocInfo
import Hotspot.Code.RelocPackets
import Hotspot.Code.Dependencies
import Hotspot.Code.DependencyWalk
import Hotspot.Code.DependencyChecks
import Hotspot.Code.DependencyChange
import Hotspot.Code.UniqueConcreteMethod
import Hotspot.Asm.CodeBuffer
import Hotspot.Asm.RelocationRecords
import Hotspot.Asm.RelocationCopy
import Hotspot.Asm.RelocationSurvival
import Hotspot.Classfile.Descriptor
import Hotspot.Classfile.ClassFileParser
import Hotspot.Classfile.LegalUtf8
import Hotspot.Classfile.FieldLayout
import Hotspot.Classfile.FieldOffsets
import Hotspot.Classfile.MachineOffsets
import Hotspot.Classfile.OopMapBlocks
import Hotspot.Classfile.ObjectLayout
import Hotspot.Classfile.VerificationType
import Hotspot.Classfile.Assignability
import Hotspot.Classfile.StackMapTable
import Hotspot.Classfile.StackMapDecoding
import Hotspot.Classfile.StackMapSafety
import Hotspot.Classfile.StackMapFrame
import Hotspot.Classfile.Verifier
import Hotspot.Interpreter.Bytecodes
import Hotspot.Interpreter.BytecodeStream
import Hotspot.Interpreter.BytecodeScan
import Hotspot.Oops.KlassVtable
import Hotspot.Oops.ClassHierarchy
import Hotspot.Oops.HierarchyLinking
import Hotspot.Oops.Subtypes
import Hotspot.Oops.KlassSupers
import Hotspot.Oops.FastSubtype
import Hotspot.Oops.VtableSlots
import Hotspot.Oops.VtableSizing
import Hotspot.Oops.VtableDispatch
import Hotspot.Oops.MethodEntries
import Hotspot.Runtime.Signature
import Hotspot.Runtime.SignatureAgreement
import Hotspot.Runtime.Fingerprint
import Hotspot.Opto.Type
import Hotspot.Opto.IntegerNode
import Hotspot.Opto.IntegerRange
import Hotspot.Opto.IntegerSoundness
import Hotspot.Opto.IntegerMonotone
import Hotspot.Opto.Saturation
import Hotspot.Opto.RangeCheckSmearing
import Hotspot.Opto.DivNode
import Hotspot.Opto.MagicConstants
import Hotspot.Opto.ShiftDivision
import Hotspot.Opto.ExactDivision
import Hotspot.Opto.ModNode
import Hotspot.Opto.FastMod
import Hotspot.Opto.BoolTest
import Hotspot.Opto.NodeIdeal
import Hotspot.Opto.CountedLoop
import Hotspot.Opto.CountedLoopRuns
import Hotspot.Opto.EmptyLoop
import Hotspot.Opto.RangeCheckElimination
import Hotspot.Opto.RangeCheckSplit
import Hotspot.Opto.SwitchRanges
import Hotspot.Opto.SwitchLowering
import Hotspot.Opto.SwitchTargets
import Hotspot.Opto.RegMask
import Hotspot.Opto.Chaitin
import Hotspot.Opto.GraphSimplify
import Hotspot.Opto.ColorChoice
import Hotspot.Opto.ColorSelection
import Hotspot.Opto.NodeHash
import Hotspot.Opto.NodeHashInvariant
import Hotspot.Opto.NodeHashOperations
import Hotspot.Opto.NodeHashRuns
import Hotspot.Memory.BlockOffsetTable
import Hotspot.Memory.BlockLookup
import Hotspot.Memory.BackSkips
import Hotspot.Gc.ObjectStartArray
import Hotspot.Gc.CardTableExtension
import Hotspot.Gc.StripePartition
import Hotspot.Gc.ParallelCompactData
import Hotspot.Gc.SlidingCompaction
