import Mio.Lib.Outcome
import Mio.Lib.Overwrite
import Mio.Lib.CellTree
import Mio.Datastore.TileIndex
import Mio.Datastore.Channel
import Mio.Datastore.Samples
import Mio.Datastore.Combine
import Mio.Datastore.Grow
import Mio.Datastore.Split
import Mio.Datastore.Step
import Mio.Datastore.Descent
import Mio.Datastore.Simulate
import Mio.Datastore.AddData
import Mio.Datastore.Invariants
import Mio.Datastore.LeafTiles
import Mio.Datastore.FullTree
import Mio.Datastore.Complete
import Mio.Datastore.Accepts
import Mio.Datastore.OneTile
import Mio.Lib.Triple
import Mio.Datastore.Moments
import Mio.Datastore.Subsampling
import Mio.Datastore.Ranges
import Mio.Datastore.TimeBounds
import Mio.Datastore.Reimport
import Mio.Datastore.ReadData
import Mio.Datastore.ReadTiles
import Mio.Lib.Transition
import Mio.LibMio.RxQueue
import Mio.LibMio.Requests
import Mio.Datastore.TickToTime
import Mio.Datastore.TileServer
import Mio.LibMio.Schedule
import Mio.Lib.Binary
import Mio.Datastore.BinaryIO
import Mio.Datastore.Binrec
import Mio.Datastore.ValueBounds
import Mio.Datastore.Canonical
import Mio.Datastore.Imports
import Mio.Datastore.Interrupted
import Mio.Datastore.Failures
import Mio.Datastore.Usable
import Mio.Adapters.Block
import Mio.Adapters.PupFrame
import Mio.Lib.Heap
import Mio.Adapters.PupReader
import Mio.Lib.Latest
import Mio.Lib.Scan
import Mio.LibMio.Data
import Mio.Tools.Aggregator
import Mio.Datastore.PeriodicData
import Mio.Datastore.Feed
import Mio.Lib.Xml
import Mio.LibMio.Elements
import Mio.LibMio.References
import Mio.LibMio.Response
import Mio.LibMio.DataItem
import Mio.LibMio.ParserData
import Mio.LibMio.Meta
import Mio.LibMio.MetaReader
import Mio.LibMio.MetaFields
import Mio.LibMio.MetaRun
import Mio.LibMio.MetaRoundTrip
import Mio.LibMio.Replies
import Mio.LibMio.ErrorReplies
import Mio.Datastore.TickTimes
import Mio.Datastore.InsertSamples
import Mio.Datastore.IsAncestorOf
import Mio.Datastore.FilesystemKvs
import Mio.Datastore.GraphSamples
import Mio.Datastore.Subkeys
import Mio.Datastore.ClosestAncestor
import Mio.Datastore.ServedTile
import Mio.Datastore.ReadBottommost
import Mio.Datastore.ReadOnly
import Mio.LibMio.RxOwner
import Mio.Lib.Keyed
import Mio.LibMio.ScheduleMerge
import Mio.Lib.Starts
import Mio.LibMio.AttributeOrder
import Mio.LibMio.ValueMerge
import Mio.Datastore.TilingRequest
import Mio.Lib.SharedMap
import Mio.Lib.Json
import Mio.Datastore.ImportJson
import Mio.Lib.JsonText
import Mio.Lib.Printf
import Mio.Datastore.Migration
import Mio.LibMio.MetaMerge
import Mio.LibMio.MetaType
import Mio.Adapters.PupCorruption
import Mio.Lib.CString
import Mio.Adapters.PupValues
import Mio.Adapters.Modbus
import Mio.LibMio.CollectionParents
import Mio.Tools.MioClient
import Mio.Tools.NodeData
import Mio.Tools.Refresh
import Mio.Tools.MioPaths
import Mio.LibMio.Collections
import Mio.Lib.Tokens
import Mio.Adapters.Enfuse
import Mio.Lib.Allocation
import Mio.Adapters.Hue
import Mio.Adapters.S2sim
import Mio.Adapters.S2simPrices
import Mio.Adapters.Bacnet
import Mio.Lib.CArray
import Mio.Services.Multiplexer
import Mio.Lib.Dictionary
import Mio.Tools.Bacsox
import Mio.Tools.BacsoxFiles
import Mio.Tools.ObjectNumbers
import Mio.LibMio.ParentStack
import Mio.Lib.Sections
import Mio.Datastore.KvsChannel
import Mio.Datastore.KvsSimulation
import Mio.Datastore.Processes
import Mio.Datastore.Interleavings
import Mio.Datastore.Export
import Mio.Datastore.BtFile
import Mio.Adapters.Jsmn
import Mio.Adapters.Replies
