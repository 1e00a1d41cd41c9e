import Dni.MergeIRanges
import Dni.IPNetRuns
import Dni.IPNetText
import Dni.IPNetMerge
import Dni.CidrWalk
import Dni.Conntrack
import Dni.ConnTracks
import Dni.MixedRanges
import Dni.TagGrammar
import Dni.TagLayout
import Dni.GraphCheck
import Dni.RemoveRangeExact
import Dni.RemoveRangeFits
import Dni.SplitExact
import Dni.AttackerAgree
import Dni.SipOrder
import Dni.FloodThresholds
import Dni.SlowEnds
import Dni.RingFifo
import Dni.SlotSafe
import Dni.RbBlob
import Dni.SyncExact
import Dni.SipDedupRandom
import Dni.DmsAgree
import Dni.SipDedupFacts
import Dni.GraphRegistry
import Dni.NodeLoop
import Dni.StreamLifecycle
import Dni.GraphWiring
import Dni.GraphChannels
import Dni.SideDataReady
import Dni.ParsedConfig
import Dni.ParsedEdges
import Dni.ParsedOrder
import Dni.GraphOrder
import Dni.GraphPrepare
import Dni.GraphErrors
import Dni.GraphStart
import Dni.GraphStops
import Dni.GraphSync
import Dni.GraphProducers
import Dni.StreamSlots
import Dni.PopAt
import Dni.Propagation
import Dni.SideDelivery
import Dni.NodeNames
import Dni.CounterStats
import Dni.SnmpExact
import Dni.BwExact
import Dni.RuleJson
import Dni.IPNetJson
import Dni.SipDedupWritten
import Dni.SipDedupSides
import Dni.SipDedupAgree
import Dni.SipDedupMatch
import Dni.SipDedupExact
import Dni.GenActions
import Dni.DmsTexts
import Dni.RandomSelect
import Dni.ProtocolScore
import Dni.NumberScore
import Dni.FeatureCounter
import Dni.SipIndexSafe
import Dni.RuleUpdate
import Dni.ThresholdAgree
import Dni.GraphErrorList
import Dni.GraphUpstream
import Dni.GraphSession
import Dni.DmsSpares
import Dni.GraphConf
import Dni.GraphLockstep
import Dni.DmsGraph
import Dni.DmsService
