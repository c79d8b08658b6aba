import SageOS.VfsEscape
import SageOS.VfsNormalForm
import SageOS.ProcessConfinement
import SageOS.TableIsolation
import SageOS.Fat32ReadBack
import SageOS.CountWrap
import SageOS.ServiceLookup
import SageOS.Lifecycle
import SageOS.Revocation
import SageOS.WaitIntegrity
import SageOS.RecvDelivery
import SageOS.HeapSizes
import SageOS.LinkedRun
import SageOS.FrameAllocator
import SageOS.VforkSuspension
import SageOS.MountSync
import SageOS.BackendEffects
import SageOS.MemSafety
import SageOS.VirtioSafety
import SageOS.MetalCall
import SageOS.ProgramRoundTrip
import SageOS.SgvmRoundTrip
import SageOS.CollectorRun
import SageOS.DiskTermination
import SageOS.ReapRelease
import SageOS.IpcBindings
import SageOS.MountResolution
import SageOS.DirectoryListing
import SageOS.Fat32NameSafety
import SageOS.Fat32ListLookup
import SageOS.Fat32Copies
import SageOS.VfsRemoval
import SageOS.BtrfsExtents
import SageOS.ProcessStack
import SageOS.ExecveFailure
import SageOS.SchedulerRuns
import SageOS.SuperCalls
import SageOS.DeferredStatements
import SageOS.TemporaryRoots
import SageOS.ThreadHandles
import SageOS.PropertyAccess
