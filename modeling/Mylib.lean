import Mylib.Lib.Memory
import Mylib.Lib.Ring
import Mylib.Spec.Comm.CycBuf
import Mylib.Spec.Thread.TaskQueue
import Mylib.Spec.Thread.Workers
import Mylib.Proofs.Comm.CycBufFifo
import Mylib.Spec.Comm.FixedBuf
import Mylib.Proofs.Comm.FixedBufFifo
import Mylib.Proofs.Comm.FixedBufLocks
import Mylib.Spec.Comm.ElasticBuf
import Mylib.Proofs.Comm.CycBufLayout
import Mylib.Proofs.Comm.CycBufRepos
import Mylib.Proofs.Comm.CycBufRegions
import Mylib.Proofs.Comm.CycBufRoom
import Mylib.Proofs.Thread.Queues
import Mylib.Proofs.Thread.NoLostTask
import Mylib.Proofs.Thread.WorkerRings
import Mylib.Proofs.Thread.WorkerAccounting
import Mylib.Proofs.Thread.CancelComplete
import Mylib.Proofs.Thread.FailedSubmission
import Mylib.Proofs.Thread.PriorityOrder
import Mylib.Proofs.Thread.DueOrder
import Mylib.Spec.Thread.Trim
import Mylib.Proofs.Thread.ThreadMax
import Mylib.Lib.CString
import Mylib.Lib.InStep
import Mylib.Lib.OrderedMap
import Mylib.Spec.Base.StringConversions
import Mylib.Spec.Base.StringUtil
import Mylib.Spec.Base.Values
import Mylib.Spec.Base.JsonReader
import Mylib.Spec.Base.JsonWriter
import Mylib.Spec.Base.JsonGrammar
import Mylib.Proofs.Base.JsonGaps
import Mylib.Proofs.Base.JsonTokens
import Mylib.Proofs.Base.JsonScalars
import Mylib.Proofs.Base.JsonValues
import Mylib.Proofs.Base.JsonSafety
import Mylib.Proofs.Base.JsonAccepts
import Mylib.Proofs.Base.Unicode
import Mylib.Spec.Base.Utf8Reader
import Mylib.Proofs.Base.Utf8Reader
import Mylib.Proofs.Base.Utf8Convert
import Mylib.Proofs.Base.Utf8Check
import Mylib.Spec.Base.UrlCoding
import Mylib.Proofs.Base.UrlEncode
import Mylib.Proofs.Base.UrlDecode
import Mylib.Proofs.Base.StringLiteral
import Mylib.Proofs.Base.JsonEmits
import Mylib.Proofs.Base.JsonRoundTrip
import Mylib.Spec.Base.HttpReader
import Mylib.Spec.Base.HttpGrammar
import Mylib.Proofs.Base.HttpTokens
import Mylib.Proofs.Base.HttpFields
import Mylib.Proofs.Base.HttpPairs
import Mylib.Proofs.Base.HttpSafety
import Mylib.Proofs.Base.HttpDepth
import Mylib.Proofs.Base.HttpParameters
import Mylib.Proofs.Base.HttpOverloads
import Mylib.Spec.Base.JsonpReader
import Mylib.Spec.Base.JsonpWriter
import Mylib.Proofs.Base.JsonpAgrees
import Mylib.Lib.History
import Mylib.Proofs.Base.JsonpHistory
import Mylib.Lib.ByteOrder
import Mylib.Spec.Protocol.DataPacket
import Mylib.Proofs.Protocol.PacketWrites
import Mylib.Proofs.Protocol.PacketReads
import Mylib.Proofs.Protocol.PacketRoundTrip
import Mylib.Proofs.Base.IntegerTexts
import Mylib.Proofs.Base.XmlBalance
import Mylib.Spec.Base.HttpWriter
import Mylib.Spec.Base.XmlWriter
import Mylib.Spec.Storage.RedisCounter
import Mylib.Proofs.Storage.CounterRaces
import Mylib.Spec.Storage.RedisHash
import Mylib.Proofs.Storage.HashAppends
import Mylib.Spec.Storage.BlockQueue
import Mylib.Proofs.Storage.BlockQueueOrder
import Mylib.Spec.Storage.MysqlTransaction
import Mylib.Proofs.Storage.TransactionCommits
import Mylib.Lib.Custody
import Mylib.Spec.Storage.ConnectionPools
import Mylib.Proofs.Storage.PoolConserve
import Mylib.Spec.Base.XmlReader
import Mylib.Proofs.Base.XmlMerge
import Mylib.Proofs.Base.XmlPositions
import Mylib.Proofs.Base.XmlReturns
import Mylib.Proofs.Base.XmlCdata
import Mylib.Lib.Climb
import Mylib.Proofs.Base.XmlTags
import Mylib.Proofs.Base.XmlAttributes
import Mylib.Proofs.Base.XmlRoundTrip
import Mylib.Proofs.Base.JsonKeys
import Mylib.Proofs.Base.JsonReports
import Mylib.Spec.Base.ValueTree
import Mylib.Proofs.Base.ValueCopies
import Mylib.Proofs.Base.ValuePaths
import Mylib.Proofs.Base.ValuePrune
import Mylib.Spec.Base.AsciiStrings
import Mylib.Proofs.Base.AsciiStrings
import Mylib.Proofs.Base.ValueMerge
import Mylib.Spec.Base.NumberStrings
import Mylib.Proofs.Base.NumberStrings
import Mylib.Proofs.Base.IntegerPrint
import Mylib.Spec.Base.Base64
import Mylib.Proofs.Base.Base64
import Mylib.Lib.Feistel
import Mylib.Spec.Algorithm.AlgoTea
import Mylib.Spec.Algorithm.Tea
import Mylib.Proofs.Algorithm.TeaLoops
import Mylib.Proofs.Algorithm.AlgoTea
import Mylib.Proofs.Algorithm.Tea
import Mylib.Proofs.Algorithm.Hex
import Mylib.Spec.Protocol.RawCursor
import Mylib.Proofs.Protocol.RawCursor
import Mylib.Spec.Protocol.HttpPacket
import Mylib.Proofs.Protocol.HttpPacket
import Mylib.Spec.Http.HeaderFunction
import Mylib.Proofs.Http.HeaderFunction
import Mylib.Spec.File.FileUtil
import Mylib.Proofs.File.WriteLoop
import Mylib.Spec.Storage.RedisValues
import Mylib.Proofs.Storage.RedisValues
import Mylib.Lib.Fixpoint
import Mylib.Spec.File.FilePath
import Mylib.Proofs.File.FilePath
import Mylib.Proofs.File.CreateDirectory
import Mylib.Lib.Blocks
import Mylib.Spec.Base.RadomIn
import Mylib.Proofs.Base.RadomIn
import Mylib.Spec.Base.Zip
import Mylib.Proofs.Base.StoredBlocks
import Mylib.Proofs.Base.Zip
import Mylib.Lib.Runs
import Mylib.Spec.Base.SplitString
import Mylib.Proofs.Base.SplitString
import Mylib.Lib.RedBlack
import Mylib.Spec.Check.RbTree
import Mylib.Spec.Check.DebugNew
import Mylib.Proofs.Check.RbShape
import Mylib.Proofs.Check.RbInsert
import Mylib.Proofs.Check.RbErase
import Mylib.Proofs.Check.RbWalk
import Mylib.Proofs.Check.DebugNew
import Mylib.Proofs.Check.LeakReport
import Mylib.Lib.Absorb
import Mylib.Spec.Base.Md5Sum
import Mylib.Proofs.Base.Md5Sum
import Mylib.Lib.Scope
import Mylib.Lib.XmlText
import Mylib.Proofs.Xmpp.Namespaces
import Mylib.Proofs.Xmpp.Printing
import Mylib.Proofs.Xmpp.Reading
import Mylib.Proofs.Xmpp.Expat
import Mylib.Proofs.Xmpp.Escaping
import Mylib.Proofs.Xmpp.RoundTrip
import Mylib.Proofs.Xmpp.Stanzas
