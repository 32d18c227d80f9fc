import Limitr.BucketIsolation
import Limitr.BucketModel
import Limitr.ConfigWatcher
import Limitr.Configuration
import Limitr.DecimalText
import Limitr.DeniedRetries
import Limitr.EnforcedPolicies
import Limitr.FailingOpen
import Limitr.FluidLevel
import Limitr.KeptBucket
import Limitr.LastMatch
import Limitr.MachineRuns
import Limitr.Metrics
import Limitr.PolicyPositions
import Limitr.RateGuarantee
import Limitr.RateLimiter
import Limitr.RateLimiterService
import Limitr.ReferenceHost
import Limitr.RunningExtremes
import Limitr.SeparatedNames
import Limitr.SettledBuckets
import Limitr.StatusReadback
import Limitr.StoredLevels
import Limitr.PasswordMasking
import Limitr.ReloadCounts
import Limitr.MultiRateRule
import Limitr.DecimalReadback
import Limitr.LimitDecisions
import Limitr.TokenTotals
import Limitr.PositiveDenials
import Limitr.SimultaneousRequests
import Limitr.BackwardClocks
import Limitr.UnreadableState
import Limitr.AllowedReplies
import Limitr.ReloadedRates
import Limitr.ConformingRuns
import Limitr.ServiceCluster
import Limitr.StarvedRetries
import Limitr.ClusterOrder
import Limitr.ClusterRates
import Limitr.ClusterMetrics
import Limitr.DecisionAccuracy
import Limitr.EarliestRetries
import Limitr.InterchangeableRequests
import Limitr.Environment
import Limitr.ConfigFaults
import Limitr.RedundantPolicies
import Limitr.CacheStatistics
import Limitr.AdmittedReplays
import Limitr.ClusterConformance
