import Crawlrs.Core.LTS
import Crawlrs.Core.Prog
import Crawlrs.Core.Pool
import Crawlrs.Core.Crew
import Crawlrs.Core.Blocks
import Crawlrs.Core.Double
import Crawlrs.Core.Duration
import Crawlrs.Core.ZSet
import Crawlrs.Core.Sketch
import Crawlrs.Core.Loop
import Crawlrs.Core.Tiers
import Crawlrs.Core.Runs
import Crawlrs.Core.Pieces
import Crawlrs.Core.Frames
import Crawlrs.L1Data.Types
import Crawlrs.L1Data.Text
import Crawlrs.L1Data.Tokens
import Crawlrs.L1Data.Routing
import Crawlrs.L1Data.Octets
import Crawlrs.L1Data.Segments
import Crawlrs.L1Data.Slashes
import Crawlrs.L1Data.SlashRuns
import Crawlrs.L1Data.CanonicalPath
import Crawlrs.L1Data.Respell
import Crawlrs.L1Data.Query
import Crawlrs.L1Data.QueryBytes
import Crawlrs.L1Data.Canonicalize
import Crawlrs.L1Data.Variants
import Crawlrs.L1Data.Length
import Crawlrs.L2Redis.Shard
import Crawlrs.L2Redis.Effects
import Crawlrs.L2Redis.Batch
import Crawlrs.L3Frontier.System
import Crawlrs.L3Frontier.Conservation
import Crawlrs.L3Frontier.Stranded
import Crawlrs.L3Frontier.Waiting
import Crawlrs.L3Frontier.Wake
import Crawlrs.L3Frontier.Exclusion
import Crawlrs.L3Frontier.Records
import Crawlrs.L3Frontier.Payload
import Crawlrs.L3Frontier.Fifo
import Crawlrs.L3Frontier.Finished
import Crawlrs.L3Frontier.Ownership
import Crawlrs.L4Runtime.Failure
import Crawlrs.L4Runtime.Ledger
import Crawlrs.L4Runtime.History
import Crawlrs.L4Runtime.Pipeline
import Crawlrs.L4Runtime.NoSilentDrop
import Crawlrs.L4Runtime.Blocked
import Crawlrs.L4Runtime.Frontier
import Crawlrs.L4Runtime.Client
import Crawlrs.L4Runtime.Trips
import Crawlrs.L4Runtime.Fleet
import Crawlrs.L4Runtime.Lossless
import Crawlrs.L4Runtime.Integrity
import Crawlrs.L4Runtime.Invocation
import Crawlrs.L4Runtime.Scope
import Crawlrs.L4Runtime.Sweep
import Crawlrs.L4Runtime.Quota
import Crawlrs.L4Runtime.Sequential
import Crawlrs.L4Runtime.PartialBatch
import Crawlrs.L4Runtime.Seed
import Crawlrs.L4Runtime.Outbox
import Crawlrs.L4Runtime.Cluster
import Crawlrs.L4Runtime.Admission
import Crawlrs.L4Runtime.Publish
import Crawlrs.L4Runtime.Rejected
import Crawlrs.L4Runtime.Drain
import Crawlrs.L4Runtime.Dispatch
import Crawlrs.L4Runtime.Redelivery
import Crawlrs.L4Runtime.Target
import Crawlrs.L4Runtime.Completion
import Crawlrs.L4Runtime.Recovery
import Crawlrs.L4Runtime.Durable
import Crawlrs.L4Runtime.Runs
import Crawlrs.L4Politeness.Robots
import Crawlrs.L4Politeness.Staleness
import Crawlrs.L4Politeness.Backoff
import Crawlrs.L4Politeness.Tracker
import Crawlrs.L4Politeness.Window
import Crawlrs.L4Politeness.Planner
import Crawlrs.L4Politeness.SafetyWake
import Crawlrs.L4Politeness.Pacing
import Crawlrs.L4Politeness.Composite
import Crawlrs.L4Politeness.Keys
import Crawlrs.L4Store.Path
import Crawlrs.L4Store.Store
import Crawlrs.L4Store.Filing
import Crawlrs.L4Store.Kept
import Crawlrs.L4Store.Overwrite
import Crawlrs.L4Store.Fanout
import Crawlrs.L4Store.Warc
import Crawlrs.L4Fetch.Fetcher
import Crawlrs.L4Parser.Extract
import Crawlrs.L4Parser.Links
import Crawlrs.L4Parser.Document
import Crawlrs.L4Runtime.Crawler
import Crawlrs.L4Runtime.Supervisor
import Crawlrs.L4Runtime.FinalDrain
import Crawlrs.L4Runtime.Shutdown
import Crawlrs.L5Fakes.Outbox
import Crawlrs.L5Fakes.Metadata
import Crawlrs.L5Fakes.Retries
import Crawlrs.L5Fakes.Budget
import Crawlrs.L5Fakes.Superseded
import Crawlrs.L5Fakes.LedgerTwin
import Crawlrs.L5Fakes.Frontier
import Crawlrs.L5Fakes.Rollback
import Crawlrs.L5Fakes.Mirror
import Crawlrs.L5Fakes.Moves
import Crawlrs.L5Fakes.Exclusive
import Crawlrs.L5Fakes.Twin
