import Pimid.Mpi.Sequence
import Pimid.Mpi.Barrier
import Pimid.Htree.Placement
import Pimid.Noc.Venue
import Pimid.Trace.Replay
import Pimid.Dram.Reconcile
import Pimid.Sched.Stranded
import Pimid.Garnet.Wakeups
import Pimid.Cache.Accesses
import Pimid.Mem.PostedWrites
import Pimid.Cut.Sound
import Pimid.Mpi.Process
import Pimid.Sim.EventRuns
import Pimid.Dram.Settlement
import Pimid.Dram.Close
import Pimid.TraceFile.Validation
import Pimid.TraceFile.ReadBack
import Pimid.Hier.Walk
import Pimid.Dram.Feed
import Pimid.Dram.Release
import Pimid.Config.Flat
import Pimid.Noc.BatchOrder
import Pimid.Noc.PairWindow
import Pimid.Mem.BusSlots
import Pimid.Mem.HostInterleave
import Pimid.Garnet.LinkFloor
import Pimid.Mem.FrozenOrder
import Pimid.Mem.FirstTouchRuns
import Pimid.Mem.SharedBufferRuns
import Pimid.Host.RingTrips
import Pimid.Cache.StreamerRecords
import Pimid.Garnet.TreeTest
import Pimid.Cut.WakeTally
import Pimid.Cache.SnoopFilterMap
import Pimid.Cut.CoresOrder
import Pimid.Noc.WireActivity
import Pimid.Garnet.OneWayRing
import Pimid.Trace.MarkersCut
import Pimid.Ramulator.Completions
import Pimid.Ramulator.PowerDown
import Pimid.Ramulator.HostBus
import Pimid.Ramulator.OnePerBank
import Pimid.Ramulator.Closing
import Pimid.Core.Scoreboard
import Pimid.Core.Recorder
import Pimid.Garnet.ClassRanges
import Pimid.Ramulator.PlCount
import Pimid.Mpi.MailboxRuns
import Pimid.X86.Buckets
import Pimid.Garnet.BusTurns
import Pimid.Ramulator.RowPolicy
import Pimid.Dram.LinearMappers
import Pimid.Ramulator.Timing
