import Darling.Proofs.AudioComponent
import Darling.Proofs.AudioComponentLocks
import Darling.Proofs.AudioHardware
import Darling.Proofs.Duct
import Darling.Proofs.ElfLoader
import Darling.Proofs.Execve
import Darling.Proofs.FSEvents
import Darling.Proofs.FileHandle
import Darling.Proofs.FileManager
import Darling.Proofs.Getattrlist
import Darling.Proofs.GetdirentriesBounds
import Darling.Proofs.LSInfo
import Darling.Proofs.MacMemory
import Darling.Proofs.PADispatchMainLoop
import Darling.Proofs.PlistBuddy
import Darling.Proofs.PosixActions
import Darling.Proofs.ProcInfo
import Darling.Proofs.Recvmsg
import Darling.Proofs.RegionFrame
import Darling.Proofs.ResourceIndex
import Darling.Proofs.ResourceLayout
import Darling.Proofs.ResourceManager
import Darling.Proofs.ResourceNumbers
import Darling.Proofs.Semaphore
import Darling.Proofs.Shellspawn
import Darling.Proofs.Sigaction
import Darling.Proofs.Simple
import Darling.Proofs.Startup
import Darling.Proofs.Statfs
import Darling.Proofs.SysctlProc
import Darling.Proofs.SysctlProcargs
import Darling.Proofs.SysctlStrings
import Darling.Proofs.TextEncodingConverter
import Darling.Proofs.UTType
import Darling.Proofs.UnicodeUtilities
import Darling.Proofs.VchrootCase
import Darling.Proofs.VchrootSafe
import Darling.Proofs.Workq
import Darling.Proofs.XtraceLock
import Darling.Proofs.XtraceRealloc
