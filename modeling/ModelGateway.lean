import ModelGateway.EpochMaxWins
import ModelGateway.CrdtTombstones
import ModelGateway.CollectorRuns
import ModelGateway.RateLimitWindow
import ModelGateway.MeshSyncRuns
import ModelGateway.SnapshotReceipt
import ModelGateway.Membership
import ModelGateway.HashRingProofs
import ModelGateway.TreeDeltas
import ModelGateway.StreamedChoice
import ModelGateway.TokenizerCacheProofs
import ModelGateway.ReasoningParser
import ModelGateway.HarmonyOutput
import ModelGateway.PartialMarkers
import ModelGateway.JumpSearchOverlap
import ModelGateway.TargetedStreams
import ModelGateway.LlamaComplete
import ModelGateway.PartialJsonTexts
import ModelGateway.StringTreeMergePaths
import ModelGateway.StringTreeLimits
import ModelGateway.KvRecovery
import ModelGateway.BackgroundStreams
import ModelGateway.PolicyRuns
import ModelGateway.BucketMembership
import ModelGateway.WorkerRegistryRuns
import ModelGateway.HealthProbes
import ModelGateway.ConcurrencyLimit
import ModelGateway.TokenWaiters
import ModelGateway.WorkflowCancellation
import ModelGateway.WorkflowContext
import ModelGateway.WorkflowProgress
import ModelGateway.RateLimitWire
