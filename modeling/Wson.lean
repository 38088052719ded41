import Wson.Cache.Recency
import Wson.Dom.Agree
import Wson.Dom.Collect
import Wson.Dom.Fields
import Wson.Dom.Generate
import Wson.Dom.Order
import Wson.Dom.Render
import Wson.Dom.Reorder
import Wson.Dom.Replay
import Wson.Dom.Taken
import Wson.Dom.Tree
import Wson.Effect.Confined
import Wson.Effect.Metered
import Wson.Effect.Program
import Wson.Effect.Run
import Wson.Effect.Shared
import Wson.Effect.Simulation
import Wson.Float.Binary64
import Wson.Float.Difference
import Wson.Float.Fields
import Wson.Format.Below
import Wson.Format.Doc
import Wson.Interop.Crossing
import Wson.Interop.NativeSense
import Wson.Interop.Primitives
import Wson.Interop.Reading
import Wson.Interop.Relay
import Wson.Interop.Sense
import Wson.Interop.Skipping
import Wson.Interop.Untrusted
import Wson.Interop.Varints
import Wson.Ios.OneValue
import Wson.Ios.Parser
import Wson.Ios.Reading
import Wson.Java.Accept
import Wson.Java.Bean
import Wson.Java.BeanCache
import Wson.Java.Builder
import Wson.Java.Capacity
import Wson.Java.CharsBuffer
import Wson.Java.Contents
import Wson.Java.Cycles
import Wson.Java.Eviction
import Wson.Java.Fallback
import Wson.Java.FixedWidth
import Wson.Java.Heap
import Wson.Java.InStep
import Wson.Java.Input
import Wson.Java.Lang
import Wson.Java.LruCache
import Wson.Java.Memory
import Wson.Java.Number
import Wson.Java.Objects
import Wson.Java.Output
import Wson.Java.Ownership
import Wson.Java.Parser
import Wson.Java.Pool
import Wson.Java.Progress
import Wson.Java.Rendering
import Wson.Java.RoundTrip
import Wson.Java.Sharing
import Wson.Java.Stores
import Wson.Java.Streams
import Wson.Java.Trees
import Wson.Java.Value
import Wson.Java.Version01
import Wson.Jsc.Boxes
import Wson.Jsc.Cache
import Wson.Jsc.Counts
import Wson.Jsc.Decoder
import Wson.Jsc.Encoder
import Wson.Jsc.ObjectStack
import Wson.Jsc.Reading
import Wson.Jsc.RoundTrip
import Wson.Jsc.System
import Wson.Jsc.Unfolding
import Wson.Jsc.Value
import Wson.Jsc.Wsonjsc
import Wson.Native.Accessors
import Wson.Native.Bounds
import Wson.Native.Calls
import Wson.Native.Capacity
import Wson.Native.Convert
import Wson.Native.Decoding
import Wson.Native.Entries
import Wson.Native.Growth
import Wson.Native.Json
import Wson.Native.JsonTree
import Wson.Native.Lang
import Wson.Native.Metered
import Wson.Native.Numbers
import Wson.Native.Parser
import Wson.Native.Quote
import Wson.Native.Reader
import Wson.Native.Session
import Wson.Native.Skip
import Wson.Native.Utf8
import Wson.Native.Walk
import Wson.Native.Writer
import Wson.Runtime.Convert
import Wson.Runtime.RoundTrip
import Wson.Runtime.Value
import Wson.Text.Decimal
import Wson.Text.Fixed
import Wson.Text.Json
import Wson.Text.Utf8
import Wson.Wire.Store
import Wson.Wire.Varint
import Wson.Wire.Word
