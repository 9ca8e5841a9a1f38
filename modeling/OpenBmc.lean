import OpenBmc.IpCamera.Restart
import OpenBmc.IpCamera.Status
import OpenBmc.IpCamera.CameraRuns
import OpenBmc.Image.StaticMtd
import OpenBmc.PrServ.Server
import OpenBmc.Oe.RelativeLinks
import OpenBmc.Oe.Chroot
import OpenBmc.Packaging.PkgData
import OpenBmc.PrServ.Connections
import OpenBmc.BitBake.Siggen
import OpenBmc.BitBake.SceneQueue
import OpenBmc.HashServ.Stable
import OpenBmc.HashServ.Equal
import OpenBmc.HashServ.Collect
import OpenBmc.AsyncRpc.Connection
import OpenBmc.BitBake.TaskData
import OpenBmc.BitBake.Unbuildable
import OpenBmc.IpCamera.Addresses
import OpenBmc.IpCamera.Userinfo
import OpenBmc.Discovery.Credentials
import OpenBmc.BitBake.Execute
import OpenBmc.BitBake.QueueRuns
import OpenBmc.BitBake.RehashRuns
import OpenBmc.BitBake.WorkerRelay
import OpenBmc.Discovery.Import
import OpenBmc.Image.Norootfs
import OpenBmc.IpCamera.Startup
import OpenBmc.HashServ.BatchRuns
import OpenBmc.PrServ.Export
import OpenBmc.Image.UbootFile
import OpenBmc.Systemd.DbusService
import OpenBmc.Initramfs.ClearRwfs
import OpenBmc.BitBake.Removes
import OpenBmc.BitBake.DependencyLoops
import OpenBmc.BitBake.CowRuns
import OpenBmc.BitBake.ProviderChoice
import OpenBmc.BitBake.TaskRuns
import OpenBmc.BitBake.TaskDependencies
import OpenBmc.BitBake.RecursiveClosure
import OpenBmc.BitBake.Names
import OpenBmc.BitBake.DeferralRuns
import OpenBmc.BitBake.SchedulerChoice
import OpenBmc.BitBake.StampAnswers
import OpenBmc.BitBake.SiggenStreams
import OpenBmc.BitBake.CacheChecks
import OpenBmc.Image.SparseCopy
import OpenBmc.BitBake.FetchMirror
import OpenBmc.BitBake.VercmpOrder
import OpenBmc.BitBake.DepVersions
import OpenBmc.Cve.Status
import OpenBmc.Cve.VersionOrder
import OpenBmc.BitBake.LayerEdits
import OpenBmc.BitBake.EditLayers
import OpenBmc.Oe.LicenseChoice
import OpenBmc.Oe.LicenseManifest
