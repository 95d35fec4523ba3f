import ExplorerKV.Foundation.Exec
import ExplorerKV.Foundation.Runs
import ExplorerKV.Bitcoin.Core
import ExplorerKV.Bitcoin.Script
import ExplorerKV.Bitcoin.Base58
import ExplorerKV.KVDB.Store
import ExplorerKV.Parser.State
import ExplorerKV.Parser.TxOps
import ExplorerKV.Parser.Primitives
import ExplorerKV.Parser.Protocol
import ExplorerKV.Parser.Effects
import ExplorerKV.Parser.Balance
import ExplorerKV.Foundation.IndexedList
import ExplorerKV.Parser.AddressTxs
import ExplorerKV.Parser.TxLists
import ExplorerKV.Parser.Operations
import ExplorerKV.Parser.TxInv
import ExplorerKV.Parser.AddressLists
import ExplorerKV.Foundation.SlotTable
import ExplorerKV.Parser.UtxoView
import ExplorerKV.Parser.UtxoTables
import ExplorerKV.Parser.Unspent
import ExplorerKV.Parser.UnspentInv
import ExplorerKV.Parser.UnspentLists
import ExplorerKV.Foundation.Lockstep
import ExplorerKV.Parser.Eviction
import ExplorerKV.Parser.CacheTransparency
import ExplorerKV.Parser.Lookups
import ExplorerKV.Foundation.Steps
import ExplorerKV.Parser.Frames
import ExplorerKV.Parser.MembershipKeys
import ExplorerKV.Parser.BlockOps
import ExplorerKV.Parser.BlockIndex
import ExplorerKV.Foundation.Machine
import ExplorerKV.Bootstrap.PrePass
import ExplorerKV.Bootstrap.PreParser
import ExplorerKV.Foundation.LineLog
import ExplorerKV.Foundation.TailReader
import ExplorerKV.Logs.Log1Tail
import ExplorerKV.Logs.Text
import ExplorerKV.Logs.Notify
import ExplorerKV.Logs.NotifyDelivery
import ExplorerKV.Parser.RawBlockRetention
import ExplorerKV.Parser.RetentionSafety
import ExplorerKV.Parser.RetentionLag
import ExplorerKV.Logs.Chain
import ExplorerKV.Logs.Log1Producer
import ExplorerKV.Logs.HandOver
import ExplorerKV.Logs.Log1Replay
import ExplorerKV.Log2.BlockTimestamp
import ExplorerKV.Parser.BlockReward
import ExplorerKV.Foundation.Cursor
import ExplorerKV.KVDB.Range
import ExplorerKV.Foundation.Mutex
import ExplorerKV.Util.BoundedBuffer
import ExplorerKV.Foundation.Peeling
import ExplorerKV.Log2.MemTxRepository
import ExplorerKV.Log2.BlockConflicts
import ExplorerKV.Foundation.UndoRedo
import ExplorerKV.Parser.UnconfirmedTimes
import ExplorerKV.Parser.NotifyReplay
import ExplorerKV.Parser.Reconfirm
import ExplorerKV.API.KvResponse
import ExplorerKV.Parser.TxInfoCache
import ExplorerKV.Parser.BalanceMaps
import ExplorerKV.Parser.UnconfirmedPool
import ExplorerKV.Parser.RecognizeBlock
import ExplorerKV.Foundation.Digits
import ExplorerKV.Logs.NotifyText
import ExplorerKV.Logs.EventTrim
import ExplorerKV.Logs.Subscriptions
import ExplorerKV.API.AddressPages
import ExplorerKV.Foundation.Json
import ExplorerKV.API.TxJson
import ExplorerKV.Util.Difficulty
import ExplorerKV.Util.Base64
import ExplorerKV.Foundation.CString
import ExplorerKV.Util.Url
import ExplorerKV.Logs.Log1Text
import ExplorerKV.Parser.OrphanHashes
import ExplorerKV.Util.BufferFifo
import ExplorerKV.Foundation.Chunks
import ExplorerKV.Bootstrap.BlockTxs
import ExplorerKV.Log2.MemTxRun
import ExplorerKV.Foundation.BinarySearch
import ExplorerKV.Bootstrap.PreAddress
import ExplorerKV.Bootstrap.RawBlockFiles
import ExplorerKV.Parser.LedgerRuns
import ExplorerKV.Log2.Producer
import ExplorerKV.Log2.NodeView
import ExplorerKV.Log2.ProducerMemory
import ExplorerKV.Log2.ProducerTables
import ExplorerKV.Log2.ProducerItems
import ExplorerKV.Log2.TimeWindow
import ExplorerKV.Log2.ProducerHandlers
import ExplorerKV.Log2.ProducerStart
import ExplorerKV.Log2.ProducerRun
import ExplorerKV.Log2.Explorer
import ExplorerKV.Bitcoin.RawHex
import ExplorerKV.Logs.Log1Lines
import ExplorerKV.Log2.MySQLSession
