import Contrees.Library.Runs
import Contrees.Library.Memory
import Contrees.Library.Footprint
import Contrees.Library.Interleaving
import Contrees.Library.CyclicPipeline
import Contrees.Library.ByteFormat
import Contrees.Library.SearchTree
import Contrees.Library.SearchTreeInsert
import Contrees.Library.SearchTreeShape
import Contrees.Library.OrderedMap
import Contrees.Library.Slots
import Contrees.Library.Words
import Contrees.Library.Radix
import Contrees.Library.TaskLedger
import Contrees.Conctrl.Common
import Contrees.Conctrl.Context
import Contrees.Conctrl.Snapshots
import Contrees.Conctrl.Seqcow
import Contrees.Conctrl.MpscList
import Contrees.Conctrl.ConcowCyclic
import Contrees.Conctrl.MultiClient
import Contrees.Conctrl.Concow
import Contrees.Conctrl.ConcowOrder
import Contrees.Conctrl.ConcowPool
import Contrees.Conctrl.ConcowSlots
import Contrees.Conctrl.ConcowPipes
import Contrees.Conctrl.ConcowClients
import Contrees.Conctrl.ConcowWorkers
import Contrees.Conctrl.ConcowRuns
import Contrees.Conctrl.ConcowBatches
import Contrees.Conctrl.ConcowProgress
import Contrees.Conctrl.ConcowDeadlock
import Contrees.Conctrl.ConcowShutdown
import Contrees.Conctrl.ConcowTraces
import Contrees.Conctrl.ConcowCalls
import Contrees.Conctrl.ConcowRoots
import Contrees.Conctrl.ConcowCommits
import Contrees.Conctrl.ConcowHandover
import Contrees.Conctrl.ConcowVersions
import Contrees.Conctrl.ConcowSafety
import Contrees.Conctrl.ConcowGates
import Contrees.Trees.Bnode
import Contrees.Trees.BnodeDenote
import Contrees.Trees.BnodeUpdate
import Contrees.Trees.BnodeBuild
import Contrees.Trees.Btree
import Contrees.Trees.BtreeUpdate
import Contrees.Trees.BtreeInplace
import Contrees.Trees.BtreeWellFormed
import Contrees.Trees.BtreeOrdered
import Contrees.Trees.Betree
import Contrees.Trees.BetreeUpdate
import Contrees.Trees.BetreeMap
import Contrees.Trees.BetreeRebuild
import Contrees.Trees.BetreeCheckpoint
import Contrees.Trees.BetreeLayout
import Contrees.Trees.BetreeLayers
import Contrees.Trees.BetreeBalance
import Contrees.Trees.BnodeFrame
import Contrees.Trees.Word
import Contrees.Trees.Art
import Contrees.Trees.ArtNode
import Contrees.Trees.ArtPrefix
import Contrees.Trees.ArtOrdered
import Contrees.Trees.ArtHandlers
import Contrees.Trees.ArtUpdate
import Contrees.Trees.ArtReaders
import Contrees.Trees.ArtCanon
import Contrees.Trees.ArtShifts
import Contrees.Trees.ArtKeys
import Contrees.Trees.ArtFootprint
import Contrees.Trees.ArtSerial
import Contrees.Trees.ArtConcow
import Contrees.Trees.ArtFrame
import Contrees.Trees.Aert
import Contrees.Trees.AertNode
import Contrees.Trees.AertPrefix
import Contrees.Trees.AertRadix
import Contrees.Trees.AertSplit
import Contrees.Trees.AertOrdered
import Contrees.Trees.AertHandlers
import Contrees.Trees.AertHalves
import Contrees.Trees.AertUpdate
import Contrees.Trees.AertScan
import Contrees.Trees.AertShape
import Contrees.Trees.AertCanon
import Contrees.Trees.AertFaults
import Contrees.Trees.AertScanKeys
import Contrees.Trees.AertShifts
import Contrees.Trees.AertFrame
import Contrees.Trees.Snapshots
import Contrees.Ycsbc.Export
