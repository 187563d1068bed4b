import RenoP.Index.Repair
import RenoP.Index.RoundTrip
import RenoP.Index.RebuildQueue
import RenoP.Index.ScanQueue
import RenoP.Database.QuotaWindows
import RenoP.Database.QuotaBound
import RenoP.Database.ClickHouseAtomic
import RenoP.Cache.Invalidations
import RenoP.Upload.Completion
import RenoP.Upload.ChunkLayout
import RenoP.Docker.StagedBlobs
import RenoP.Docker.BlobReferences
import RenoP.Docker.MirrorImages
import RenoP.Docker.LockClosure
import RenoP.Docker.Catalog
import RenoP.Team.NPMTeam
import RenoP.Team.DockerRemoval
import RenoP.Team.SuperTeamRoles
import RenoP.Review.ReviewRuns
import RenoP.Capacity.CapacityRuns
import RenoP.Cargo.IndexReadback
import RenoP.Cargo.YankRuns
import RenoP.FileCache.SequentialRuns
import RenoP.Native.Deletion
import RenoP.Native.PackageIndex
import RenoP.Traffic.QuotaRuns
import RenoP.Maven.Reclaim
import RenoP.Maven.DomainMergeRules
import RenoP.Maven.SnapshotCleanup
import RenoP.Maven.PathLockCover
import RenoP.Credentials.Revocation
import RenoP.Accounts.EmailRuns
import RenoP.Accounts.OneTimeCodes
import RenoP.Paths.SubPath
import RenoP.Ids.CompactID
import RenoP.Npm.PackagePaths
import RenoP.Npm.ReviewRuns
import RenoP.Artifacts.DiskRuns
import RenoP.Settings.SettingsRuns
import RenoP.RateLimit.GateRuns
import RenoP.Network.ExtractIP
import RenoP.Network.ParseRange
import RenoP.Mail.Charges
import RenoP.Native.ConanPath
import RenoP.Statistics.CounterRuns
import RenoP.Proxy.WholeResponses
import RenoP.Native.PublicationFailures
import RenoP.Database.ClickHouseKeys
import RenoP.Npm.Unpublishing
import RenoP.Proxy.Waiting
import RenoP.Git.Retention
import RenoP.Artifacts.Deduplication
import RenoP.Mail.StaleResults
import RenoP.Gates.RepositoryGate
