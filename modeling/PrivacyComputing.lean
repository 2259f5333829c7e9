import PrivacyComputing.RunsHistory
import PrivacyComputing.CryptoPack
import PrivacyComputing.DataProvider
import PrivacyComputing.BlockFileWrite
import PrivacyComputing.BlockFile
import PrivacyComputing.BlockFileRead
import PrivacyComputing.DataHub
import PrivacyComputing.DataFeed
import PrivacyComputing.ChannelPair
import PrivacyComputing.ChannelNonce
import PrivacyComputing.ChannelAgreement
import PrivacyComputing.ChannelResponder
import PrivacyComputing.KeyManager
import PrivacyComputing.KeymgrSession
import PrivacyComputing.Analyzer
import PrivacyComputing.AnalyzerResult
import PrivacyComputing.AnalyzerFrame
import PrivacyComputing.AnalyzerSession
import PrivacyComputing.AnalyzerAllowance
import PrivacyComputing.AnalyzerRequest
import PrivacyComputing.BlockFileLeading
import PrivacyComputing.BlockFileLeadingRead
import PrivacyComputing.BlockFileSessions
import PrivacyComputing.KeyForwarding
import PrivacyComputing.AnalyzerMulti
import PrivacyComputing.DataSources
import PrivacyComputing.AnalyzerOutput
import PrivacyComputing.AnalyzerIsolation
import PrivacyComputing.HpdaEngine
import PrivacyComputing.HpdaNetwork
import PrivacyComputing.HpdaProcess
import PrivacyComputing.HpdaTransform
import PrivacyComputing.HpdaInvariant
import PrivacyComputing.HpdaTermination
import PrivacyComputing.HpdaDiscipline
import PrivacyComputing.HpdaPipeline
import PrivacyComputing.HpdaSplit
import PrivacyComputing.HpdaLoops
import PrivacyComputing.DataParsing
import PrivacyComputing.AccessPolicy
import PrivacyComputing.KeymgrEcalls
import PrivacyComputing.AnalyzerForward
import PrivacyComputing.KeyRegistration
import PrivacyComputing.SessionIds
import PrivacyComputing.AnalyzerMonotone
import PrivacyComputing.AnalyzerJoint
import PrivacyComputing.KeymgrBuffers
import PrivacyComputing.MemoryLayout
import PrivacyComputing.Envelope
import PrivacyComputing.EnvelopeRoundTrip
import PrivacyComputing.EnvelopeSizes
import PrivacyComputing.BlockFileTruncated
import PrivacyComputing.HpdaStar
import PrivacyComputing.OrderedStreams
import PrivacyComputing.HpdaStarRun
import PrivacyComputing.HpdaGroupby
import PrivacyComputing.HpdaAggregators
import PrivacyComputing.HpdaOrderedSets
import PrivacyComputing.HpdaSetRounds
import PrivacyComputing.HpdaSetRows
import PrivacyComputing.HpdaUnionColumns
import PrivacyComputing.BytesObjects
import PrivacyComputing.Version
import PrivacyComputing.BytesArchive
import PrivacyComputing.HexCodec
import PrivacyComputing.BlockFileTable
import PrivacyComputing.HpdaJsonBatch
import PrivacyComputing.HpdaKmeans
import PrivacyComputing.HpdaKmeansDivisions
import PrivacyComputing.HpdaKmeansStream
import PrivacyComputing.StreamText
import PrivacyComputing.NtJson
import PrivacyComputing.Base58
import PrivacyComputing.Base64
import PrivacyComputing.CsvColumns
import PrivacyComputing.CsvLineReader
import PrivacyComputing.CsvReader
import PrivacyComputing.CxxFile
import PrivacyComputing.Unseal
import PrivacyComputing.AnalyzerDelivery
import PrivacyComputing.AnalyzerRelay
import PrivacyComputing.BigEndian
import PrivacyComputing.BinaryPolynomial
import PrivacyComputing.BlockStream
import PrivacyComputing.Gf128
import PrivacyComputing.Ghash
import PrivacyComputing.Keccak
import PrivacyComputing.KeccakPermutation
import PrivacyComputing.KeyStore
import PrivacyComputing.Sm3
import PrivacyComputing.Sm4
import PrivacyComputing.Sm4Aes
import PrivacyComputing.Sm4Cbc
