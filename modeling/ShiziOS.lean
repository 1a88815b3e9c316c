import ShiziOS.Mm.VmaInv
import ShiziOS.Mm.MmuRun
import ShiziOS.Fs.LookupRefines
import ShiziOS.Fs.Append
import ShiziOS.Ext2.AllocRun
import ShiziOS.Util.Sha256
import ShiziOS.Util.DynarrList
import ShiziOS.Util.DynarrBitmap
import ShiziOS.Task.Files
import ShiziOS.Sync.Rwlock
import ShiziOS.Task.WorkerPool
import ShiziOS.Task.Sched
import ShiziOS.Block.Core
import ShiziOS.Pci.Scan
import ShiziOS.Virtio.Packed
import ShiziOS.Fs.TreeRuns
import ShiziOS.Time.BootTime
import ShiziOS.Time.Timecycle
import ShiziOS.Drivers.Remove
import ShiziOS.Mm.AllocFailure
import ShiziOS.Exec.UserStack
import ShiziOS.Util.Kio
import ShiziOS.Mm.FirstFit
import ShiziOS.Fs.PathParent
import ShiziOS.Fs.FindMount
import ShiziOS.Fs.Caches
import ShiziOS.Ext2.Levels
import ShiziOS.Ext2.DirScan
import ShiziOS.Ext2.Mount
import ShiziOS.Task.Create
import ShiziOS.Task.WaitCircle
