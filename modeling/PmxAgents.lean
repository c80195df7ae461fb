import PmxAgents.Backup.Command
import PmxAgents.Backup.CreatePath
import PmxAgents.Backup.RetentionDryRun
import PmxAgents.Backup.S3Resume
import PmxAgents.Backup.SyncPull
import PmxAgents.ConsoleBroker.BridgeJoin
import PmxAgents.ConsoleBroker.ReplaySafety
import PmxAgents.Core.Drain
import PmxAgents.Core.EnrollHistory
import PmxAgents.Core.Keyset
import PmxAgents.Core.Results
import PmxAgents.Core.SpawnFiles
import PmxAgents.HardwareInstaller.BootConfig
import PmxAgents.HardwareInstaller.Kernel
import PmxAgents.HardwareInstaller.LxcConfig
import PmxAgents.HardwareInstaller.Runner
import PmxAgents.HardwareInstaller.ScriptDescriptor
import PmxAgents.Hypervisor.Ct
import PmxAgents.Hypervisor.CtProperties
import PmxAgents.Hypervisor.Presets
import PmxAgents.Hypervisor.Provisioning
import PmxAgents.Network.ActiveLink
import PmxAgents.Network.AddressFamilies
import PmxAgents.Network.KernelRules
import PmxAgents.Network.Lockdown
import PmxAgents.Security.CveScan
import PmxAgents.Security.ScopeVerdict
import PmxAgents.Security.SshAudit
import PmxAgents.Shared.ExecAudit
import PmxAgents.Shared.Interleaving
import PmxAgents.Shared.Reconnect
import PmxAgents.Shared.ReplayRuns
import PmxAgents.SharedRust.AuditFailures
import PmxAgents.SharedRust.KeyAgreement
import PmxAgents.SharedRust.ReplayAgreement
import PmxAgents.Storage.Format
import PmxAgents.Storage.ImportImage
import PmxAgents.Storage.NfsShares
import PmxAgents.Storage.Samba
import PmxAgents.Storage.ZfsProps
import PmxAgents.Storage.ZfsStatus
import PmxAgents.Telemetry.ForSeconds
import PmxAgents.Telemetry.KernelEvents
import PmxAgents.Telemetry.RingQueue
import PmxAgents.Updater.AptPlan
import PmxAgents.Updater.Release
import PmxAgents.Updater.SwapHistory
import PmxAgents.Updater.WindowIntervals
