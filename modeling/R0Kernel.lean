import R0Kernel.Fs.Locks.Atomic
import R0Kernel.Kernel.Timer.NextInterrupt
import R0Kernel.Kernel.Kfifo
import R0Kernel.Kernel.Pid
import R0Kernel.Kernel.Printk
import R0Kernel.Lib.Rbtree.Erase
import R0Kernel.Lib.RadixTree.NextHole
import R0Kernel.Lib.RadixTree.Preload
import R0Kernel.Lib.RadixTree.Gang
import R0Kernel.Lib.PrioTree.Query
import R0Kernel.Net.Filter.Scratch
import R0Kernel.Lib.Rwsem
import R0Kernel.Lib.Plist
import R0Kernel.Lib.Bitmap.Shift
import R0Kernel.Fs.Nls
import R0Kernel.Fs.PosixAcl
import R0Kernel.Arch.SdmaIram
import R0Kernel.Drivers.Mtd.NandEcc
import R0Kernel.Drivers.Tinywmr.Context
import R0Kernel.Drivers.Tinywmr.RoArea
import R0Kernel.Fs.Vfat.LongName
import R0Kernel.Fs.Fat.Super
import R0Kernel.Fs.Fat.Integrity
import R0Kernel.Fs.Fat.Transparent
import R0Kernel.Fs.Fat.CacheRace
import R0Kernel.Fs.Fat.Time
import R0Kernel.Fs.Fat.NameBuffer
import R0Kernel.Fs.Fat.EntryArray
import R0Kernel.Fs.Jffs2.Rtime
import R0Kernel.Mm.Vmalloc
import R0Kernel.Fs.Ext2.Accounting
import R0Kernel.Fs.Ext2.Concurrent
import R0Kernel.Net.IpFragment.Integrity
import R0Kernel.Ipc.Sem.Undo
import R0Kernel.Net.Filter.Pointers
import R0Kernel.Kernel.Resource.Allocate
import R0Kernel.Kernel.Jiffies
import R0Kernel.Fs.Locks.Flock
import R0Kernel.Mm.PageAlloc.Watermark
import R0Kernel.Lib.Div64
