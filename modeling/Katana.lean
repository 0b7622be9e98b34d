import Katana.Lib.Digits
import Katana.Lib.Leb
import Katana.Lib.Framing
import Katana.Lib.Decoding
import Katana.Lib.Table
import Katana.Lib.Thread
import Katana.Lib.Grouped
import Katana.Lib.Chain
import Katana.Lib.Enumerates
import Katana.Lib.Memory
import Katana.Lib.Region
import Katana.Lib.Run
import Katana.Lib.Marks
import Katana.Fault
import Katana.CString
import Katana.Leb.Encode
import Katana.Leb.Decode
import Katana.GrowingBuffer
import Katana.Leb.RoundTrip
import Katana.Register
import Katana.Dwarf.Instr
import Katana.Dwarf.FdeRead
import Katana.Dwarf.ExprCodec
import Katana.Dwarf.Codec
import Katana.Dwarf.Encoding
import Katana.Dwarf.Framing
import Katana.Dictionary
import Katana.Map
import Katana.Target
import Katana.EhPe
import Katana.Lsda.Build
import Katana.Lsda.Read
import Katana.Lsda.Layout
import Katana.Lsda.TypeBase
import Katana.Lsda.ActionTable
import Katana.CallFrameInfo
import Katana.Rules
import Katana.Remember
import Katana.DwarfVm
import Katana.Nesting
import Katana.Traversal
import Katana.Assignment
import Katana.FrameLayout
import Katana.EhFrameHdr
import Katana.FdeReader
import Katana.FramePointers
import Katana.Augmentation
import Katana.FreeSpace
import Katana.StopLocation
import Katana.CompilationUnits
import Katana.DictionaryNodes
import Katana.MapNodes
import Katana.Breakpoints
import Katana.PltCopy
import Katana.SourceTree
import Katana.Aliasing
import Katana.ParallelFixup
import Katana.SafeBreakpoint
import Katana.TypeDiff
import Katana.TransformWriter
import Katana.TypeRecursion
import Katana.CyclicTypes
import Katana.StructTransform
import Katana.Lsda.RoundTrip
import Katana.Lsda.TypeTable
import Katana.AugmentationSearch
import Katana.OffsetMap
import Katana.Lsda.Pointers
import Katana.FrameList
import Katana.Lib.Halving
import Katana.FdeSearch
import Katana.Dwarfscript
import Katana.Lib.Overwrite
import Katana.RuleCells
import Katana.UnwindTable
import Katana.Dwarf.Bounds
import Katana.Lib.Format
import Katana.Lsda.Bounds
import Katana.ExprEval
import Katana.ArrayTypes
import Katana.RecordAlignment
import Katana.ReplaceRaw
import Katana.Lib.Follow
import Katana.LinkMap
import Katana.PatchTables
import Katana.Relocation
import Katana.Addend
import Katana.Lib.LastMatch
import Katana.Reindex
import Katana.SortList
import Katana.CodeDiff
import Katana.CodeOrder
import Katana.Lib.Paired
import Katana.CodeSame
import Katana.Lib.Links
import Katana.ListNodes
import Katana.ListConcat
import Katana.DListNodes
import Katana.StringLiterals
import Katana.RelativePath
import Katana.UnsafeList
import Katana.Lib.Copies
import Katana.FieldCopies
import Katana.StructPatch
import Katana.Lib.Munch
import Katana.Script.Lexer
import Katana.Script.Print
import Katana.Script.Parse
import Katana.Script.Reads
import Katana.Script.Expressions
import Katana.Script.Instructions
import Katana.Script.Frames
import Katana.Script.Lsdas
import Katana.Script.RoundTrip
import Katana.Lib.Standing
import Katana.FunctionPatch
import Katana.FunctionSymbols
import Katana.LivePatching
import Katana.RelocationRun
