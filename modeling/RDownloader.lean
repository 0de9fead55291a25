import RDownloader.Lib.BlockStream
import RDownloader.Http.Plan
import RDownloader.Http.MacCompleteness
import RDownloader.Http.Engine
import RDownloader.Db.ChunkLedger
import RDownloader.Scheduler.Bandwidth
import RDownloader.Http.CheckpointAgreement
import RDownloader.Lib.Machine
import RDownloader.Db.SourceLedger
import RDownloader.Http.MultiSourceState
import RDownloader.Http.RangeSource
import RDownloader.Http.MultiSource
import RDownloader.Scheduler.WorkerSources
import RDownloader.Scheduler.SourceParallel
import RDownloader.Scheduler.SourcePlan
import RDownloader.Scheduler.SourceInvariant
import RDownloader.Scheduler.SourceSteps
import RDownloader.Scheduler.SourceCompletion
import RDownloader.Scheduler.SourceBlame
import RDownloader.Scheduler.SourceFetches
import RDownloader.Core.DownloadState
import RDownloader.Http.BalancedPlan
import RDownloader.Db.TransferRows
import RDownloader.Db.TransferInvariant
import RDownloader.Usenet.Health
import RDownloader.Db.DownloadRows
import RDownloader.Scheduler.Control
import RDownloader.Db.DownloadBatches
import RDownloader.Scheduler.ControlBatches
import RDownloader.Scheduler.Failures
import RDownloader.Db.DownloadWrites
import RDownloader.Scheduler.Attempts
import RDownloader.Scheduler.StopRequests
import RDownloader.Db.PackageRows
import RDownloader.Scheduler.Enqueue
import RDownloader.Db.Recovery
import RDownloader.Scheduler.DownloadWindow
import RDownloader.Scheduler.WindowInvariant
import RDownloader.Usenet.Nntp
import RDownloader.Usenet.Pool
import RDownloader.Lib.Counting
import RDownloader.Usenet.PoolLimit
import RDownloader.Usenet.PoolAbsence
import RDownloader.Db.HopelessSets
import RDownloader.Core.Dates
import RDownloader.Db.UsenetQuota
import RDownloader.Db.QuotaFigure
import RDownloader.Collector.Crawljob
import RDownloader.Collector.CrawljobRoundTrip
import RDownloader.Files.StorageRoot
import RDownloader.Files.RootContainment
import RDownloader.RemoteJobs.Row
import RDownloader.RemoteJobs.Store
import RDownloader.RemoteJobs.Sweep
import RDownloader.RemoteJobs.SubmitLimit
import RDownloader.Lib.Xml
import RDownloader.Lib.XmlLexer
import RDownloader.RemoteJobs.Ended
import RDownloader.Auth.Throttle
import RDownloader.Auth.KeyCounts
import RDownloader.Auth.OwnCalls
import RDownloader.Auth.BruteForce
import RDownloader.Events.EventBus
import RDownloader.Events.Following
import RDownloader.Db.PreMigration
import RDownloader.Db.WayBack
import RDownloader.Backup.Stream
import RDownloader.Backup.Header
import RDownloader.Backup.Archive
import RDownloader.Backup.ForeignPaths
import RDownloader.Backup.Places
import RDownloader.Backup.Remapping
import RDownloader.Backup.Opening
import RDownloader.Streams.Schedule
import RDownloader.Streams.ScheduleStore
import RDownloader.Streams.Monitor
import RDownloader.Streams.Recorded
import RDownloader.Automation.Engine
import RDownloader.Automation.Queue
import RDownloader.Automation.Hearing
import RDownloader.Automation.Delivered
import RDownloader.Automation.Schedule
import RDownloader.Automation.NextRun
import RDownloader.Files.Names
import RDownloader.Http.CookieScope
import RDownloader.Http.CookieContainment
import RDownloader.Http.CounterMode
import RDownloader.Http.PieceCover
import RDownloader.Limits.WeeklySchedule
import RDownloader.Subscriptions.Archive
import RDownloader.Subscriptions.Poll
import RDownloader.Subscriptions.FirstPoll
import RDownloader.Auth.SecondFactor
import RDownloader.Auth.SingleUse
import RDownloader.Lib.Refusing
import RDownloader.SiteRules.AddressScope
import RDownloader.SiteRules.Rule
import RDownloader.SiteRules.Run
import RDownloader.SiteRules.Steps
import RDownloader.SiteRules.Executor
import RDownloader.SiteRules.Bolts
import RDownloader.SiteRules.Reach
import RDownloader.SiteRules.GroupsApart
import RDownloader.Scheduler.Collision
import RDownloader.Scheduler.Promotion
import RDownloader.Scheduler.PromotionSafety
import RDownloader.Collector.Nzb
import RDownloader.Collector.NzbWriting
import RDownloader.Collector.NzbRoundTrip
import RDownloader.Lib.Ranges
import RDownloader.Usenet.Covered
import RDownloader.Scheduler.DispatchOrder
import RDownloader.Usenet.Yenc
import RDownloader.Usenet.YencHeader
import RDownloader.Usenet.NntpReader
import RDownloader.Usenet.YencArticle
import RDownloader.Collector.Grouping
import RDownloader.Collector.Grouped
import RDownloader.Core.Timing
import RDownloader.Db.SourceHealth
import RDownloader.Scheduler.SourceStanding
import RDownloader.Http.HostLimit
import RDownloader.Collector.Mirrors
import RDownloader.Collector.MirrorGroups
import RDownloader.Scheduler.RetryTimes
import RDownloader.Scheduler.RetryBudget
import RDownloader.Scheduler.BudgetGate
import RDownloader.Extract.Refill
import RDownloader.Lib.Apportion
import RDownloader.Usenet.Shares
import RDownloader.Core.CookieFile
import RDownloader.Core.CookieRoundTrip
import RDownloader.Auth.AddressText
import RDownloader.Auth.ClientAddress
import RDownloader.Lib.Wildcard
import RDownloader.Torrent.Glob
import RDownloader.Torrent.GlobMeaning
import RDownloader.Torrent.GlobCase
import RDownloader.Capture.StableHash
import RDownloader.Files.PortableNames
import RDownloader.Files.Paths
import RDownloader.Files.Template
import RDownloader.Files.SortTemplate
import RDownloader.Files.TemplateSafety
import RDownloader.Redact.Redaction
import RDownloader.Redact.Tokens
import RDownloader.Redact.Scan
import RDownloader.Lib.Offsets
import RDownloader.Postprocess.MultiVolume
import RDownloader.Lib.KeyedFold
import RDownloader.Postprocess.ArchiveSets
import RDownloader.Postprocess.ArchiveOrder
import RDownloader.Streams.Missed
import RDownloader.Streams.Occurrences
import RDownloader.SiteRules.JsString
import RDownloader.SiteRules.Expansion
import RDownloader.SiteRules.PageContent
import RDownloader.Lib.Repeating
import RDownloader.SiteRules.Reading
import RDownloader.SiteRules.Beside
import RDownloader.Lib.BitStream
import RDownloader.Auth.Base32
import RDownloader.Torrent.Bencode
import RDownloader.Torrent.BencodeRoundTrip
import RDownloader.Usenet.AssemblyName
import RDownloader.Files.MoveSafety
