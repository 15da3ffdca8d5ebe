import MassGridMiner.Lib.Run
import MassGridMiner.Lib.Word
import MassGridMiner.Lib.CString
import MassGridMiner.Lib.Lines
import MassGridMiner.Lib.Atof
import MassGridMiner.Lib.Hex
import MassGridMiner.Lib.Buffer
import MassGridMiner.Lib.Format
import MassGridMiner.Lib.Varint
import MassGridMiner.Crypto.Sha256Digest
import MassGridMiner.Work
import MassGridMiner.JumpHash
import MassGridMiner.Device.ScanHash
import MassGridMiner.Device.Coverage
import MassGridMiner.Device.Match
import MassGridMiner.Device.Enable
import MassGridMiner.Device.Async
import MassGridMiner.Share.TestNonce
import MassGridMiner.Share.Work2d
import MassGridMiner.Share.Response
import MassGridMiner.Share.Pipeline
import MassGridMiner.Share.Accounting
import MassGridMiner.Stratum.Job
import MassGridMiner.Stratum.Json
import MassGridMiner.Stratum.RecvLine
import MassGridMiner.Stratum.Method
import MassGridMiner.Stratum.Notify
import MassGridMiner.Stratum.Reply
import MassGridMiner.Stratum.CoinbaseOutputs
import MassGridMiner.Stratum.CheckCoinbase
import MassGridMiner.Difficulty
import MassGridMiner.Stratum.Template
import MassGridMiner.Stratum.GenWork
import MassGridMiner.Proxy.Subscribe
import MassGridMiner.Proxy.NotifyStr
import MassGridMiner.Lib.RefCount
import MassGridMiner.Stratum.TmplRef
import MassGridMiner.Blocks
import MassGridMiner.Staging.Work
import MassGridMiner.Staging.Counters
import MassGridMiner.Staging.Rolling
import MassGridMiner.Lib.Ranking
import MassGridMiner.Pools.Table
import MassGridMiner.Pools.Order
import MassGridMiner.Pools.Priorities
import MassGridMiner.Lib.Search
import MassGridMiner.Stratum.Uri
import MassGridMiner.Stratum.Address
import MassGridMiner.Stratum.Reconnect
import MassGridMiner.Lib.Split
import MassGridMiner.Lib.Ledger
import MassGridMiner.Lib.JsonText
import MassGridMiner.Share.Books
import MassGridMiner.Share.Flow
import MassGridMiner.Share.Copies
import MassGridMiner.Share.Balance
import MassGridMiner.Lib.Bits
import MassGridMiner.Api.Groups
import MassGridMiner.Api.Access
import MassGridMiner.Api.Dispatch
import MassGridMiner.Api.Data
import MassGridMiner.Api.State
import MassGridMiner.Api.Codes
import MassGridMiner.Api.Fields
import MassGridMiner.Api.Commands
import MassGridMiner.Api.Bounds
import MassGridMiner.Api.Readable
import MassGridMiner.Api.Reply
import MassGridMiner.Lib.Double
import MassGridMiner.Proxy.SetDifficulty
import MassGridMiner.Proxy.Lines
import MassGridMiner.Proxy.LineSafety
import MassGridMiner.Lib.Divisor
import MassGridMiner.Lib.Rotation
import MassGridMiner.Pools.Quota
import MassGridMiner.Pools.Balanced
import MassGridMiner.Pools.LoadBalance
import MassGridMiner.Pools.Switching
import MassGridMiner.Lib.FixedWidth
import MassGridMiner.Staging.NtimeRange
import MassGridMiner.Stratum.NtimeLimits
import MassGridMiner.Staging.Choice
import MassGridMiner.Staging.Retry
import MassGridMiner.Lib.HexNumber
import MassGridMiner.Proxy.Jobs
import MassGridMiner.Subsidy
import MassGridMiner.MiningGoals
import MassGridMiner.Stratum.GoalReset
import MassGridMiner.Lib.Reads
import MassGridMiner.Stratum.Domain
import MassGridMiner.Stratum.HostUri
import MassGridMiner.Stratum.PoolUrl
import MassGridMiner.Lib.Words
import MassGridMiner.Stratum.Params
import MassGridMiner.Lib.Utf8
import MassGridMiner.WriteConfig
import MassGridMiner.Pools.SelectPool
import MassGridMiner.Scheduler
import MassGridMiner.Pools.Rearrange
import MassGridMiner.Lib.StringBuffer
import MassGridMiner.Device.ProcNames
import MassGridMiner.Api.PoolDetails
import MassGridMiner.Schedule
import MassGridMiner.Lib.SignedDouble
import MassGridMiner.Pools.Utility
import MassGridMiner.Device.HashLimit
import MassGridMiner.Share.HwErrors
import MassGridMiner.Staging.Spare
import MassGridMiner.ConfigIncludes
import MassGridMiner.Device.Ranges
import MassGridMiner.Device.Patterns
import MassGridMiner.Device.Table
import MassGridMiner.Api.PgaEnable
import MassGridMiner.Lib.Records
import MassGridMiner.Api.Notify
import MassGridMiner.Share.Log
import MassGridMiner.Lib.JsonObject
import MassGridMiner.Proxy.Getwork
import MassGridMiner.Proxy.Clients
import MassGridMiner.Lib.Chunks
import MassGridMiner.Device.Spi
import MassGridMiner.Lib.Windows
import MassGridMiner.Device.HashFastMsg
import MassGridMiner.Device.QueuedWork
import MassGridMiner.Device.HashFast
import MassGridMiner.Device.AvalonMm
import MassGridMiner.Proxy.ShareTold
import MassGridMiner.Lib.WithNan
import MassGridMiner.Proxy.UserDiffRuns
import MassGridMiner.Device.ResultBuffer
import MassGridMiner.Lib.Strtod
import MassGridMiner.Device.Intensity
import MassGridMiner.Device.GpuLists
import MassGridMiner.Device.Minergate
import MassGridMiner.Device.MinergateRuns
import MassGridMiner.Lib.Custody
import MassGridMiner.Lib.Keyed
import MassGridMiner.Device.Titan
import MassGridMiner.Lib.SlotRing
import MassGridMiner.Device.UsbTransfer
import MassGridMiner.Util.GrowBuffer
import MassGridMiner.Lib.Crc
import MassGridMiner.Lib.ForInt
import MassGridMiner.Util.Checksum
import MassGridMiner.Util.Ucs2
import MassGridMiner.Util.Sanestr
import MassGridMiner.Lib.Heap
import MassGridMiner.Util.BytesT
import MassGridMiner.Device.Klondike
import MassGridMiner.Device.Cointerra
import MassGridMiner.Device.Icarus
import MassGridMiner.Device.Minion
import MassGridMiner.Lib.Looks
import MassGridMiner.Device.Bitforce
import MassGridMiner.Device.BitforceResults
import MassGridMiner.Util.Trim
import MassGridMiner.Lib.Strtol
import MassGridMiner.Util.IntRange
import MassGridMiner.Device.MinergateStats
import MassGridMiner.Lib.Sha256
import MassGridMiner.Crypto.Sha256Chunk
import MassGridMiner.Crypto.Sha256Pieces
import MassGridMiner.Lib.Linked
import MassGridMiner.Device.Lowlevel
import MassGridMiner.Device.LowlevelScan
import MassGridMiner.Lib.Circular
import MassGridMiner.Api.DataList
import MassGridMiner.Api.DataCells
import MassGridMiner.Api.DataRuns
import MassGridMiner.Lib.Blocks
import MassGridMiner.Device.KncAsic
import MassGridMiner.Device.KncCores
import MassGridMiner.Device.KncWorks
import MassGridMiner.Device.KncDies
import MassGridMiner.Device.KncRuns
import MassGridMiner.Util.CgLock
import MassGridMiner.Crypto.Sha2
import MassGridMiner.Crypto.HeaderHash
import MassGridMiner.Crypto.ScanHashC
import MassGridMiner.Lib.Merkle
import MassGridMiner.Stratum.MerkleTree
import MassGridMiner.Device.Antminer
