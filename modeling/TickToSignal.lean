import TickToSignal.OrderBook.Correctness
import TickToSignal.OrderBook.UpdateIdOrder
import TickToSignal.OrderBook.RefreshTrace
import TickToSignal.Quote.Continuity
import TickToSignal.Quote.RequestBackoff
import TickToSignal.Quote.SnapshotPauses
import TickToSignal.Quote.SnapshotReply
import TickToSignal.Quote.QuoteRow
import TickToSignal.Trade.BackfillDelivery
import TickToSignal.Trade.IdsOnce
import TickToSignal.Trade.HolesRecorded
import TickToSignal.Trade.BackfillProgress
import TickToSignal.Trade.IdPartition
import TickToSignal.Handler.Numbers
import TickToSignal.Handler.EventInfluence
import TickToSignal.Publisher.Delivery
import TickToSignal.Publisher.Counters
import TickToSignal.Tp.SeqNo
import TickToSignal.Tp.TornTail
import TickToSignal.Tp.Rebuild
import TickToSignal.Tp.AllOrNothing
import TickToSignal.Tp.FallbackSeed
import TickToSignal.Tp.Incidents
import TickToSignal.Wdb.StoredOnce
import TickToSignal.Wdb.CrashInFlush
import TickToSignal.Wdb.ReplayComplete
import TickToSignal.Wdb.KeepsRows
import TickToSignal.Wdb.Halted
import TickToSignal.Wdb.PartitionOrder
import TickToSignal.Utils.LogRetention
import TickToSignal.Utils.CheckQuoteSeq
import TickToSignal.Utils.LossDetected
import TickToSignal.Utils.HandlerRows
import TickToSignal.Utils.RebuildDay
import TickToSignal.Utils.MigrateResume
import TickToSignal.Backtest.Accounting
import TickToSignal.Backtest.Clock
import TickToSignal.Backtest.PositionCap
import TickToSignal.Backtest.StopLoss
import TickToSignal.Backtest.DueEvents
import TickToSignal.Afml.Conservation
import TickToSignal.Afml.Numbering
import TickToSignal.Labels.Locality
import TickToSignal.PubSub.Delivery
import TickToSignal.Publisher.KRows
import TickToSignal.Utils.FundingLoader
import TickToSignal.Backtest.Replay
import TickToSignal.Ml.FeatureBounds
import TickToSignal.Backtest.Momentum
import TickToSignal.Wdb.HoldsLog
