import TrainVla.Properties.StatusHistory
import TrainVla.Properties.Cancellation
import TrainVla.Properties.ConcurrentJobs
import TrainVla.Properties.Documents
import TrainVla.Properties.SingleStart
import TrainVla.Properties.QueueOrder
import TrainVla.Properties.GpuExclusivity
import TrainVla.Properties.DailyQuota
import TrainVla.Properties.StrandedJobs
import TrainVla.Properties.Checkpoints
import TrainVla.Properties.ExtractedArchives
import TrainVla.Properties.QueuedUploads
import TrainVla.Properties.UniqueAccounts
import TrainVla.Properties.UserUpdates
import TrainVla.Interaction.Evaluation
import TrainVla.Properties.IndependentAccounts
import TrainVla.System.Submissions
import TrainVla.Properties.ZipOutcomes
import TrainVla.Properties.SubmissionPaths
import TrainVla.Properties.DatasetCache
import TrainVla.Properties.UserIsolation
import TrainVla.Interaction.Invariance
import TrainVla.Properties.JobDirectories
import TrainVla.Properties.Listing
import TrainVla.Interaction.Outcomes
import TrainVla.Interaction.Restriction
import TrainVla.System.Exceptions
import TrainVla.System.WorkerExceptions
import TrainVla.Properties.Guards
import TrainVla.Properties.Reconciliation
import TrainVla.Interaction.EvalsTo
import TrainVla.System.CancellationPass
import TrainVla.Properties.StoppedJobs
import TrainVla.Properties.Finalization
import TrainVla.Store.Earliest
import TrainVla.Properties.PollerTick
import TrainVla.System.FetchRun
import TrainVla.Properties.FetchFailures
import TrainVla.System.TimeoutRun
import TrainVla.Properties.HungJobs
import TrainVla.Properties.CacheEviction
import TrainVla.Calendar.Dates
import TrainVla.Calendar.IsoFormat
import TrainVla.Adapters.Documents
import TrainVla.Store.Encoding
import TrainVla.Adapters.Firestore
import TrainVla.Properties.FirestoreAdapters
import TrainVla.Properties.TimeoutSweep
import TrainVla.Properties.DecompressionBomb
import TrainVla.Properties.LruEviction
import TrainVla.Docker.TrainEntrypoint
import TrainVla.Properties.ProgressCadence
import TrainVla.Properties.ProgressReading
import TrainVla.Properties.PasswordHistories
import TrainVla.Backend.Api
import TrainVla.Interaction.FileLock
import TrainVla.Interaction.Fleet
import TrainVla.Interaction.Renaming
import TrainVla.Properties.WorkerFleet
import TrainVla.Interaction.Gate
import TrainVla.Properties.ApiGatekeeping
import TrainVla.Properties.SingleServer
import TrainVla.Calendar.DateTime
import TrainVla.Docker.ParseArgs
import TrainVla.Docker.WriteProgress
import TrainVla.Properties.ContainerContract
import TrainVla.Properties.ProgressPublishing
