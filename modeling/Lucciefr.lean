import Lucciefr.Base.Adler
import Lucciefr.Base.BigEndian
import Lucciefr.Base.Bits
import Lucciefr.Base.Buffer
import Lucciefr.Base.CString
import Lucciefr.Base.Calendar
import Lucciefr.Base.CanonicalCode
import Lucciefr.Base.Circular
import Lucciefr.Base.Decimal
import Lucciefr.Base.Decoder
import Lucciefr.Base.Deflate
import Lucciefr.Base.Effect
import Lucciefr.Base.Fault
import Lucciefr.Base.Fifo
import Lucciefr.Base.Heap
import Lucciefr.Base.Hex
import Lucciefr.Base.Interaction
import Lucciefr.Base.Linked
import Lucciefr.Base.Occurrence
import Lucciefr.Base.OrderedMap
import Lucciefr.Base.Outcome
import Lucciefr.Base.Reader
import Lucciefr.Base.Retry
import Lucciefr.Base.Rounding
import Lucciefr.Base.Run
import Lucciefr.Base.Stride
import Lucciefr.Base.Threads
import Lucciefr.Platform
import Lucciefr.RingBuffer.Ownership
import Lucciefr.RingBuffer.Resize
import Lucciefr.RingBuffer.Safety
import Lucciefr.LinkedList.Correctness
import Lucciefr.LinkedList.Runs
import Lucciefr.Msgpack.RoundTrip
import Lucciefr.Msgpack.Unpacked
import Lucciefr.Log.Removal
import Lucciefr.Log.Delivery
import Lucciefr.Log.Dispatch
import Lucciefr.Log.Indentation
import Lucciefr.Log.PassCounts
import Lucciefr.Log.Simulation
import Lucciefr.Uthash.Refinement
import Lucciefr.Uthash.Integrity
import Lucciefr.Log.HashedCheckpoints
import Lucciefr.Log.RoundTrip
import Lucciefr.Log.Text
import Lucciefr.Gzip.RoundTrip
import Lucciefr.Gzip.Bounds
import Lucciefr.Tinfl.RoundTrip
import Lucciefr.Tinfl.Checksum
import Lucciefr.Processes.Basic
import Lucciefr.Processes.Lifetime
import Lucciefr.Processes.Cleanup
import Lucciefr.Processes.Executable
import Lucciefr.Strutils.Format
import Lucciefr.Strutils.Hash
import Lucciefr.Strutils.ElfHash
import Lucciefr.Strutils.Trim
import Lucciefr.Strutils.Search
import Lucciefr.Strutils.Repeat
import Lucciefr.Symbols.Basic
import Lucciefr.Symbols.Bounds
import Lucciefr.Symbols.Names
import Lucciefr.Timing.Format
import Lucciefr.Timing.Truthful
import Lucciefr.Utils.Hexdump
import Lucciefr.Lua.Value
import Lucciefr.Lua.State
import Lucciefr.Lua.Api
import Lucciefr.Lua.Call
import Lucciefr.Lua.Traversal
import Lucciefr.Luautils.Pack
import Lucciefr.Luautils.Protected
import Lucciefr.Luautils.Pointers
import Lucciefr.Luautils.KeyOf
import Lucciefr.Luautils.Sequential
import Lucciefr.Luautils.Count
import Lucciefr.Luautils.Append
import Lucciefr.Luautils.Merge
import Lucciefr.Luautils.Keys
import Lucciefr.Luautils.Guarded
