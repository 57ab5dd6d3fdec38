import Deemon.Int.BitReference
import Deemon.Time.Add
import Deemon.Seq.SortCorrect
import Deemon.Collections.DequeRuns
import Deemon.Collections.DequeRotate
import Deemon.Asm.LinkExact
import Deemon.Asm.RmDelop
import Deemon.Runtime.HashAgree
import Deemon.Unicode.AsUtf16
import Deemon.Runtime.SlabRuns
import Deemon.Collections.ListRemove
import Deemon.Collections.DictErase
import Deemon.Collections.DictPositional
import Deemon.Seq.ObjectRange
import Deemon.Unicode.Codec
import Deemon.Unicode.CommitUtf16
import Deemon.Unicode.Utf8Backwards
import Deemon.Runtime.SimpleHashset
import Deemon.Runtime.Accumulator
import Deemon.Unicode.BytesPrint
import Deemon.Json.Number
import Deemon.Json.LazyMapping
import Deemon.Int.SizeCompare
import Deemon.Int.BitQueries
import Deemon.Collections.FixedList
import Deemon.Collections.BitsetFromSeq
import Deemon.Collections.RbTreeIterCompare
import Deemon.Runtime.HashIo
import Deemon.Unicode.FuzzyCompare
import Deemon.Unicode.VersionOrder
import Deemon.Seq.Segments
import Deemon.Seq.Combinations
import Deemon.Unicode.WildCompare
import Deemon.Unicode.ScanAgree
import Deemon.Int.PrintParse
import Deemon.Collections.RbTreeRefines
import Deemon.Collections.DictRuns
import Deemon.Runtime.SharedLock
