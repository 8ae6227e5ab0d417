import Mpt.Memory
import Mpt.Core
import Mpt.Run
import Mpt.Queue.Ring
import Mpt.Queue.Content
import Mpt.Queue.Align
import Mpt.Queue.Fifo
import Mpt.Message.Read
import Mpt.Convert.Blocks
import Mpt.Convert.Encode
import Mpt.Convert.EncodeSpec
import Mpt.Convert.Buffering
import Mpt.Convert.Decode
import Mpt.Convert.Scan
import Mpt.Convert.DecodeSpec
import Mpt.Convert.Delivery
import Mpt.Convert.Incremental
import Mpt.Array.Heap
import Mpt.Array.Array
import Mpt.Array.Private
import Mpt.Array.Push
import Mpt.Array.Coding
import Mpt.Queue.Recv
import Mpt.Queue.Deliver
import Mpt.Queue.Push
import Mpt.Convert.Window
import Mpt.Convert.Text
import Mpt.Convert.TextStream
import Mpt.Message.Id
import Mpt.Message.Argv
import Mpt.Message.Fragments
import Mpt.Message.Segments
import Mpt.Message.Reads
import Mpt.Message.Append
import Mpt.Event.Command
import Mpt.Event.Table
import Mpt.Event.Reserve
import Mpt.Event.Reply
import Mpt.Event.ReplyProtocol
import Mpt.Output.Connection
import Mpt.Output.Answer
import Mpt.Output.Logfile
import Mpt.Config.Path
import Mpt.Config.PathList
import Mpt.Config.PathRun
import Mpt.Tree.Nodes
import Mpt.Parse.Append
import Mpt.Parse.Outline
import Mpt.Queue.Encoding
import Mpt.Queue.Transparent
import Mpt.Queue.Resize
import Mpt.Stream.Push
import Mpt.Stream.Framing
import Mpt.Tree.Forest
import Mpt.Tree.Move
import Mpt.Tree.Merge
import Mpt.Tree.Leaf
import Mpt.Parse.Node
import Mpt.Plot.Mapping
import Mpt.Misc.Identifier
import Mpt.Misc.IdentifierRun
import Mpt.Types.Registry
import Mpt.Types.Lookup
import Mpt.Stream.Flush
import Mpt.Event.Notify
import Mpt.Event.NotifyRun
import Mpt.Plot.Iterator
import Mpt.Plot.Numeric
import Mpt.Plot.NumericRun
import Mpt.Plot.RawDataRun
import Mpt.Plot.Linepart
import Mpt.Plot.ApplyLog
import Mpt.Plot.Split
import Mpt.Plot.Polyline
import Mpt.Plot.Calls
import Mpt.Plot.Apply
import Mpt.Plot.Joins
import Mpt.Config.Items
import Mpt.Config.ItemsRun
import Mpt.Config.StoresRun
import Mpt.Meta.TextIteratorRun
import Mpt.Convert.Extent
import Mpt.Convert.Frame
import Mpt.Convert.InPlace
import Mpt.Convert.Resync
import Mpt.Convert.Deletion
import Mpt.Convert.TextDeletion
import Mpt.Array.Mapped
import Mpt.Array.Edit
import Mpt.Array.SliceWrite
import Mpt.Array.Detach
import Mpt.Stream.Sync
import Mpt.Stream.Input
import Mpt.Stream.Read
import Mpt.Output.Datagram
import Mpt.Queue.Looks
import Mpt.Queue.Ends
import Mpt.Queue.Crop
import Mpt.Queue.Offset
import Mpt.Queue.Prepare
import Mpt.Hidden
import Mpt.Message.Search
import Mpt.Message.Scatter
import Mpt.Config.PathSplit
import Mpt.Config.PathEnd
import Mpt.Tree.Traverse
import Mpt.Tree.Level
import Mpt.Tree.Clone
import Mpt.Tree.CloneRun
import Mpt.Tree.Links
import Mpt.Tree.Switch
import Mpt.Tree.Insert
import Mpt.Tree.Place
import Mpt.Tree.Inserted
import Mpt.Tree.Handover
import Mpt.Tree.Relink
import Mpt.Tree.Pass
import Mpt.Tree.PassRun
import Mpt.Tree.MoveAll
import Mpt.Config.Assign
import Mpt.Number.Float80
import Mpt.Number.ValfmtParse
import Mpt.Array.Print
import Mpt.Plot.BindString
import Mpt.Array.Compact
import Mpt.Loader.Readline
import Mpt.Collection.Find
import Mpt.Plot.Cycles
import Mpt.Config.MessageAssign
import Mpt.Output.Assemble
import Mpt.Config.MessageQuery
import Mpt.Array.Typed
import Mpt.Array.Zones
import Mpt.Config.Post
import Mpt.Parse.Scan
import Mpt.Parse.Elements
import Mpt.Parse.Nesting
import Mpt.Parse.ConfigRun
import Mpt.Parse.Layout
import Mpt.Parse.ReadBack
import Mpt.Parse.Sections
import Mpt.Parse.TextTree
import Mpt.Parse.Describe
import Mpt.Stream.Channel
import Mpt.Array.Shared
import Mpt.Parse.Lookup
