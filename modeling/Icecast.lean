import Icecast.Lib.Transition
import Icecast.Lib.IcyFormat
import Icecast.Lib.RefHeap
import Icecast.Lib.Linked
import Icecast.Lib.Rotations
import Icecast.Client
import Icecast.Queue
import Icecast.QueueInvariant
import Icecast.Format
import Icecast.Source
import Icecast.ListenerInvariant
import Icecast.SourceInvariant
import Icecast.SourceRuns
import Icecast.SourceSlots
import Icecast.Mp3Writer
import Icecast.StreamDelivery
import Icecast.Mp3State
import Icecast.Mp3Reader
import Icecast.ListenSockets
import Icecast.LogRecords
import Icecast.Mp3Demux
import Icecast.Mp3Source
import Icecast.Mp3Framing
import Icecast.Mp3Listener
import Icecast.OggHeaders
import Icecast.OggListener
import Icecast.AccessList
import Icecast.Admin
import Icecast.ConnectionQueue
import Icecast.Lib.Terminator
import Icecast.Lib.Lists
import Icecast.ListenerStat
import Icecast.ClientLife
import Icecast.RelayUpdate
import Icecast.RequestFraming
import Icecast.SourceHandover
import Icecast.FormatAgreement
import Icecast.OggCodecs
import Icecast.VorbisRebuild
import Icecast.YpEntries
import Icecast.FserveDelivery
import Icecast.FserveWake
import Icecast.EbmlHeader
import Icecast.Authenticator
import Icecast.Ebml
import Icecast.EbmlSegments
import Icecast.Lib.Decimal
import Icecast.Lib.Keyed
import Icecast.Stats
import Icecast.StatsArithmetic
import Icecast.StatsFeed
import Icecast.DuplicateLogins
import Icecast.Htpasswd
import Icecast.HtpasswdStore
import Icecast.SourcePass
import Icecast.SourceViews
import Icecast.SourceFallback
import Icecast.BurstStart
import Icecast.Mp3Title
import Icecast.ResponseHeader
import Icecast.ListenerHeaders
import Icecast.FserveRange
import Icecast.HttppStore
import Icecast.HttppSegments
import Icecast.RelayConnect
import Icecast.SocketReaders
import Icecast.XsltCache
import Icecast.LogRing
import Icecast.LogFormat
import Icecast.Lib.Machine
import Icecast.Base64Buffers
import Icecast.UrlEscape
import Icecast.AudioInfo
import Icecast.Lib.AvlMap
import Icecast.MimeTypes
import Icecast.StreamList
import Icecast.Mp3Metadata
import Icecast.HeaderOrder
import Icecast.AvlIteration
import Icecast.AvlValues
import Icecast.FlacPages
import Icecast.Lib.BlockHash
import Icecast.Md5
import Icecast.MasterList
import Icecast.RelayThreads
import Icecast.RelayChain
import Icecast.RelayRequest
import Icecast.MasterPoll
import Icecast.YpServers
import Icecast.StatsClients
