import ControlTower.Archive.BatchExact
import ControlTower.Archive.LargeExact
import ControlTower.Billing.DetailPages
import ControlTower.Billing.JobProgress
import ControlTower.Billing.QuotaRounding
import ControlTower.Billing.Reproducible
import ControlTower.Billing.SpoolExact
import ControlTower.Billing.TierAggregate
import ControlTower.Billing.Unambiguous
import ControlTower.ChannelControl.Listing
import ControlTower.Dashboard.WindowPage
import ControlTower.Dispatch.CapacityGuard
import ControlTower.Dispatch.CapacityHistory
import ControlTower.Dispatch.Stranded
import ControlTower.Dispatch.ZeroWriteRuns
import ControlTower.ErrorAlert.Episodes
import ControlTower.ErrorStats.Conservation
import ControlTower.Facts.DuplicateKeys
import ControlTower.Facts.Evidence
import ControlTower.Files.Durable
import ControlTower.Latency.Quantile
import ControlTower.Logs.Search
import ControlTower.Nginx.Acked
import ControlTower.Pipeline.History
import ControlTower.Pipeline.Rounds
import ControlTower.Schedule.Once
import ControlTower.Schedule.Periodic
import ControlTower.Tuning.ClaimAgreement
import ControlTower.Tuning.CoverageRuns
import ControlTower.Tuning.ErrorDecayRuns
import ControlTower.Tuning.ManualHold
import ControlTower.Tuning.ProbeTicks
import ControlTower.Tuning.RoutineProbe
