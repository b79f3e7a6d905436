import HighPerformance.FallibleRun
import HighPerformance.MEOrderBookMatching
import HighPerformance.MEOrderBookInvariant
import HighPerformance.MarketOrderBook
import HighPerformance.MarketOrderBookChecks
import HighPerformance.MarketOrderBookRefinement
import HighPerformance.SnapshotSynthesizer
import HighPerformance.UpdateStream
import HighPerformance.SnapshotReplay
import HighPerformance.MEOrderBookOwnership
import HighPerformance.EventBus
import HighPerformance.EventBusHandles
import HighPerformance.ThreadPool
import HighPerformance.BitSmear
import HighPerformance.LockFreeQueue
import HighPerformance.LockFreeQueueStamps
import HighPerformance.Framing
import HighPerformance.Packing
import HighPerformance.MarketDataConsumer
import HighPerformance.MarketDataDelivery
import HighPerformance.MEOrderBookMixing
import HighPerformance.MEOrderBookCancel
import HighPerformance.MEOrderBookGreedy
import HighPerformance.MarketOrderBookClear
import HighPerformance.MarketOrderBookQuotes
import HighPerformance.MarketOrderBookStale
import HighPerformance.MarketOrderBookReset
import HighPerformance.MarketDataRecovery
import HighPerformance.PriceLevelReach
import HighPerformance.LFQueue
import HighPerformance.LFQueueThreads
import HighPerformance.FIFOSequencer
import HighPerformance.TCPSocket
import HighPerformance.PositionKeeper
import HighPerformance.OrderManager
import HighPerformance.TradeEngine
import HighPerformance.MarketMakerQuotes
import HighPerformance.TickerIndependence
import HighPerformance.Logger
import HighPerformance.OrderPacking
import HighPerformance.OrderServer
import HighPerformance.MEOrderBookPrinter
import HighPerformance.OrderChannel
import HighPerformance.PositionLimit
import HighPerformance.MEOrderBookTrades
import HighPerformance.MatchingEngine
import HighPerformance.FramedStream
import HighPerformance.OrderEntry
import HighPerformance.FailsOnly
import HighPerformance.MEOrderBookFaults
import HighPerformance.Exchange
import HighPerformance.Fifo3
import HighPerformance.Fifo4
import HighPerformance.FreshnessRingBuffer
import HighPerformance.LockFreeQueueWithoutDummyNode
import HighPerformance.LockFreeQueueHft
import HighPerformance.Fifo5
import HighPerformance.HazardPointer
import HighPerformance.PPSBuffer
import HighPerformance.MemPoolRuns
import HighPerformance.ReceiveBuffer
import HighPerformance.MEOrderBookLedger
import HighPerformance.MEOrderBookPrices
import HighPerformance.MatchingEngineRuns
import HighPerformance.CallHistory
import HighPerformance.SplitReferenceCount
import HighPerformance.SplitReferenceCountRuns
import HighPerformance.PipelinedPasses
import HighPerformance.ThreadsafeList
import HighPerformance.ThreadsafeListRuns
import HighPerformance.ThreadsafeQueue
import HighPerformance.ThreadsafeQueueRuns
import HighPerformance.ThreadsafeQueueWakeups
import HighPerformance.LockFreeStack
import HighPerformance.LockFreeStackRuns
