import ContainerScheduler.Analysis.AccountedRuns
import ContainerScheduler.Analysis.RequestConservation
import ContainerScheduler.Analysis.ExitCrossing
import ContainerScheduler.Analysis.SocketIdentity
import ContainerScheduler.Analysis.Addressing
import ContainerScheduler.Analysis.LostWakeup
import ContainerScheduler.Analysis.Incarnation
import ContainerScheduler.Analysis.PriorityPasses
import ContainerScheduler.Analysis.QueueOrder
import ContainerScheduler.Analysis.ContainerStates
import ContainerScheduler.Analysis.UpdateReports
import ContainerScheduler.Analysis.UpdatesApplied
import ContainerScheduler.Analysis.ShutdownStuck
import ContainerScheduler.Analysis.Deadness
import ContainerScheduler.Analysis.IterationRing
import ContainerScheduler.Analysis.RendezvousCancel
import ContainerScheduler.Analysis.BlockReads
import ContainerScheduler.Analysis.OrderedItems
import ContainerScheduler.Analysis.FlatCounters
import ContainerScheduler.Analysis.FlatMapRefines
import ContainerScheduler.Analysis.BufCompletion
import ContainerScheduler.Analysis.SliceQueries
import ContainerScheduler.Analysis.ArenaPlans
import ContainerScheduler.Analysis.PackedShapes
import ContainerScheduler.Analysis.WorkNeverWaits
import ContainerScheduler.Analysis.ReadyNodes
import ContainerScheduler.Analysis.ProportionFactor
import ContainerScheduler.Analysis.Deficits
import ContainerScheduler.Analysis.ProgressiveUpdates
import ContainerScheduler.Analysis.InterruptedReads
import ContainerScheduler.Analysis.EventRecords
import ContainerScheduler.Analysis.IndependentCounters
import ContainerScheduler.Analysis.CancelledCallbacks
import ContainerScheduler.Analysis.VarintRoundTrip
import ContainerScheduler.Analysis.Base64RoundTrip
import ContainerScheduler.Analysis.FixedBlocks
import ContainerScheduler.Analysis.RegionExtension
import ContainerScheduler.Analysis.BufferedCursor
import ContainerScheduler.Analysis.TruncatedRecords
import ContainerScheduler.Analysis.CollapsedBroadcast
import ContainerScheduler.Analysis.RangeSearch
import ContainerScheduler.Analysis.RecentWindow
import ContainerScheduler.Analysis.SchedulingCapacity
import ContainerScheduler.Analysis.ShapeMerging
import ContainerScheduler.Analysis.GreedyPlans
import ContainerScheduler.Analysis.PostOrders
import ContainerScheduler.Analysis.ControlFrames
import ContainerScheduler.Analysis.PhiloxStreams
import ContainerScheduler.Analysis.DimensionArithmetic
import ContainerScheduler.Analysis.SlicedShapes
import ContainerScheduler.Analysis.LevenshteinDistance
import ContainerScheduler.Analysis.CleanPaths
import ContainerScheduler.Analysis.TopElements
import ContainerScheduler.Analysis.CanonicalDevices
import ContainerScheduler.Analysis.ScopedAllocations
import ContainerScheduler.Analysis.LeadingDigits
import ContainerScheduler.Analysis.HighProducts
import ContainerScheduler.Analysis.UnionFindClusters
import ContainerScheduler.Analysis.WeightedPicking
import ContainerScheduler.Analysis.PoolAllocations
import ContainerScheduler.Analysis.ReachableNodes
import ContainerScheduler.Analysis.DeviceGroups
