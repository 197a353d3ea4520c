import Temps.Core.WorkflowStops
import Temps.LogAggregator.Services.WalRetry
import Temps.LogAggregator.Services.CompactionRuns
import Temps.LogAggregator.Services.SealSafety
import Temps.LogAggregator.Services.PurgeSafety
import Temps.Core.HostnameCollisions
import Temps.Queue.DurableSafety
import Temps.Proxy.OnDemandFailures
import Temps.Proxy.OnDemandRuns
import Temps.Dns.AckSafety
import Temps.Proxy.CertProgress
import Temps.Proxy.CertLimits
import Temps.Routes.Snapshots
import Temps.Routes.Completion
import Temps.LogAggregator.Store.PageCompleteness
import Temps.PtyAgent.Frames
import Temps.PtyAgent.Registry
import Temps.Cloud.TenantIsolation
import Temps.Cloud.OutboxRetries
import Temps.Cloud.OutboxOwnership
import Temps.Cloud.Submissions
import Temps.BackupCore.TerminalRows
import Temps.BackupCore.Records
import Temps.Deployments.Placement
import Temps.Proxy.StaticContainment
import Temps.Proxy.IpRules
import Temps.Otel.WriteLedger
import Temps.Otel.ReadWindow
import Temps.Otel.Consent
import Temps.Otel.BackfillWindow
import Temps.Monitoring.BreachClock
import Temps.Monitoring.OpenAlarms
import Temps.Network.DisjointSubnets
import Temps.Network.Forwarding
import Temps.Network.Routing
import Temps.Auth.CliDevice
import Temps.Backup.S3Lifecycle
import Temps.Backup.RestoreCancel
import Temps.Network.DialLease
import Temps.Network.Reservations
import Temps.Network.SubnetPicking
import Temps.WireGuard.HelloLimiter
import Temps.WireGuard.PeerPlan
import Temps.LogAggregator.Store.LineIdentity
import Temps.LogAggregator.Store.Pruning
import Temps.Otel.SignalGroups
import Temps.PtyAgent.RingBounds
