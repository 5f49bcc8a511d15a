import HftSystem.BookRefinement
import HftSystem.UpdateLaws
import HftSystem.MarketFeed
import HftSystem.InstrumentIdentity
import HftSystem.UnknownSymbols
import HftSystem.LevelBlocks
import HftSystem.WebSocketBuffer
import HftSystem.MarketDataIngester
import HftSystem.ParserBounds
import HftSystem.Shutdown
import HftSystem.WebSocketSender
import HftSystem.Signals
import HftSystem.MemoryPool
import HftSystem.HistoricalAggregator
import HftSystem.Momentum
import HftSystem.LatencyHistogram
import HftSystem.AtomicRing
import HftSystem.Startup
import HftSystem.Trading
import HftSystem.FrameReports
import HftSystem.TlsLifetime
import HftSystem.Progress
import HftSystem.SideHistory
import HftSystem.MainThreads
import HftSystem.MainShutdown
import HftSystem.AnyStream
