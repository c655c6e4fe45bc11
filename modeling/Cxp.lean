import Cxp.LinkedChain
import Cxp.StableOrder
import Cxp.RunInduction
import Cxp.MemoryArena
import Cxp.InterprocessorQueue
import Cxp.TimerQueue
import Cxp.ProcessRecord
import Cxp.TimerRun
import Cxp.TimeoutOwnership
import Cxp.TimerArming
import Cxp.Rendezvous
import Cxp.Communication
import Cxp.CommunicationView
import Cxp.CommunicationInvariant
import Cxp.CommunicationSteps
import Cxp.CommunicationWakers
import Cxp.CommunicationAlting
import Cxp.ChannelGuarantees
import Cxp.SelectReadiness
import Cxp.TryIn
import Cxp.OrderedSearch
import Cxp.AlternationCalls
import Cxp.SelectOrder
import Cxp.ReadyQueue
import Cxp.TimerAgenda
import Cxp.ReadyOrder
import Cxp.Scheduler
import Cxp.SchedulerSeats
import Cxp.SchedulerLedger
import Cxp.SchedulerInvariant
import Cxp.SchedulerSteps
import Cxp.SchedulerGuarantees
import Cxp.ContextSwitch
import Cxp.NestedPriorities
import Cxp.ProcessorTurns
import Cxp.SchedulerPopulation
import Cxp.SchedulerTurns
import Cxp.PriorityGuarantees
import Cxp.SignalMasks
import Cxp.ProcessorAffinity
import Cxp.ElapsedClock
import Cxp.RendezvousOrder
import Cxp.AlternationTimeouts
import Cxp.ProcessorUnits
import Cxp.InterruptDelivery
import Cxp.QueueDeadlock
import Cxp.ProcessStanding
import Cxp.ProcessorSwitch
import Cxp.RecordRelease
import Cxp.TimerAgenda
import Cxp.DispatchOrder
import Cxp.SchedulerTally
import Cxp.AfterCalls
import Cxp.BoundedFifo
import Cxp.QueueRefinement
import Cxp.GuardIndexing
import Cxp.ProcessLayout
import Cxp.ReadinessTests
import Cxp.TimerTable
import Cxp.ReceiveCalls
import Cxp.LockedSections
import Cxp.MutexClaims
import Cxp.ChannelSections
import Cxp.AllocatorSections
import Cxp.ScheduledChannels
import Cxp.ScheduledRendezvous
import Cxp.StraightLineThreads
import Cxp.ProcessorBoot
import Cxp.BootInvariant
import Cxp.SignalRouting
import Cxp.ReadyBypass
import Cxp.ScheduledMutexes
import Cxp.MutexStarvation
