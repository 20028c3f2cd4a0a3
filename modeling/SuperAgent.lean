import SuperAgent.Chain.Address
import SuperAgent.Contract.Accounting
import SuperAgent.Contract.Carrying
import SuperAgent.Contract.Crossings
import SuperAgent.Contract.Solvency
import SuperAgent.Contract.StrategyPrizePool
import SuperAgent.Contract.TestToken
import SuperAgent.Core.Base64
import SuperAgent.Core.Calendar
import SuperAgent.Core.Channel
import SuperAgent.Core.Checked
import SuperAgent.Core.Clock
import SuperAgent.Core.Gapless
import SuperAgent.Core.Generation
import SuperAgent.Core.Grouped
import SuperAgent.Core.Keyed
import SuperAgent.Core.Paging
import SuperAgent.Core.Recent
import SuperAgent.Core.Rounding
import SuperAgent.Core.Run
import SuperAgent.Core.RunningSums
import SuperAgent.Core.Signs
import SuperAgent.Core.Tally
import SuperAgent.Core.Text
import SuperAgent.Fixed.Decimal
import SuperAgent.Fixed.Exact
import SuperAgent.Fixed.Grammar
import SuperAgent.Fixed.Parse
import SuperAgent.Fixed.Printing
import SuperAgent.Fixed.Rescaling
import SuperAgent.Fixed.Scaled
import SuperAgent.Indexer.Mirroring
import SuperAgent.Indexer.PrizePool
import SuperAgent.Keys.Store
import SuperAgent.Perpl.Answers
import SuperAgent.Perpl.Bars
import SuperAgent.Perpl.Convert
import SuperAgent.Perpl.Frames
import SuperAgent.Perpl.MarketData
import SuperAgent.Perpl.Place
import SuperAgent.Perpl.Positions
import SuperAgent.Perpl.RequestIds
import SuperAgent.Perpl.Sizing
import SuperAgent.Perpl.Streams
import SuperAgent.Perpl.Submit
import SuperAgent.Perpl.Subscriptions
import SuperAgent.Perpl.Waiters
import SuperAgent.Perpl.WireOrder
import SuperAgent.Platform.Amend
import SuperAgent.Platform.Attribution
import SuperAgent.Platform.Auth
import SuperAgent.Platform.BarBuilder
import SuperAgent.Platform.Boards
import SuperAgent.Platform.Closers
import SuperAgent.Platform.ConcurrentOpens
import SuperAgent.Platform.Enforcement
import SuperAgent.Platform.Exits
import SuperAgent.Platform.Fallback
import SuperAgent.Platform.Feed
import SuperAgent.Platform.History
import SuperAgent.Platform.Horizons
import SuperAgent.Platform.Journal
import SuperAgent.Platform.Ledger
import SuperAgent.Platform.Leftovers
import SuperAgent.Platform.Live
import SuperAgent.Platform.Memo
import SuperAgent.Platform.Mirror
import SuperAgent.Platform.OneMarket
import SuperAgent.Platform.OpenRows
import SuperAgent.Platform.PartialCloses
import SuperAgent.Platform.Persisted
import SuperAgent.Platform.Prize
import SuperAgent.Platform.PrizeBooks
import SuperAgent.Platform.PrizeFunding
import SuperAgent.Platform.PrizeHistory
import SuperAgent.Platform.PrizeOrder
import SuperAgent.Platform.Ranks
import SuperAgent.Platform.Registry
import SuperAgent.Platform.Restarts
import SuperAgent.Platform.RiskReport
import SuperAgent.Platform.RiskStats
import SuperAgent.Platform.RiskTotals
import SuperAgent.Platform.Service
import SuperAgent.Platform.Shares
import SuperAgent.Platform.Signals
import SuperAgent.Platform.Standings
import SuperAgent.Platform.TokenText
import SuperAgent.Platform.Weeks
import SuperAgent.Platform.Winners
import SuperAgent.Platform.Written
import SuperAgent.Policy.Days
import SuperAgent.Policy.Engine
import SuperAgent.Policy.Traces
import SuperAgent.Strategy.Bars
import SuperAgent.Strategy.Donchian
import SuperAgent.Strategy.MACross
import SuperAgent.Strategy.ORB
import SuperAgent.Strategy.RSI
import SuperAgent.Strategy.Timers
import SuperAgent.Venue.Minutes
import SuperAgent.Venue.Order
import SuperAgent.Platform.MarketSync
import SuperAgent.Platform.SignalFeeds
import SuperAgent.Platform.DailyBudget
import SuperAgent.Platform.Delisting
import SuperAgent.Chain.Abi
import SuperAgent.Core.Rlp
import SuperAgent.Chain.Rlp
import SuperAgent.Chain.Tx
import SuperAgent.Platform.Cards
import SuperAgent.Core.Closure
import SuperAgent.Eip712.Values
import SuperAgent.Eip712.Types
import SuperAgent.Eip712.Digest
import SuperAgent.Eip712.Specification
import SuperAgent.Eip712.Atoms
import SuperAgent.Eip712.Leaves
import SuperAgent.Eip712.Soundness
import SuperAgent.Eip712.Outcome
import SuperAgent.Core.Folding
import SuperAgent.Core.Table
import SuperAgent.Keys.Pending
import SuperAgent.Platform.Enrolled
import SuperAgent.Platform.Referrals
import SuperAgent.Keys.Seal
import SuperAgent.Keys.KeyTable
import SuperAgent.Store.Migrations
import SuperAgent.Chain.Personal
import SuperAgent.Platform.Signatures
import SuperAgent.Core.Windows
import SuperAgent.Perpl.Candles
import SuperAgent.Core.Windows
import SuperAgent.Perpl.Rest
import SuperAgent.Perpl.Candles
import SuperAgent.Platform.Devices
import SuperAgent.Perpl.Sign
import SuperAgent.Envfile.Load
