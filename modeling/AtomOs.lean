import AtomOs.Buf.CacheRun
import AtomOs.Kbd.Keyboard
import AtomOs.Time.ExpiryTicks
import AtomOs.Sched.Barrier
import AtomOs.Sync.Terminate
import AtomOs.Proc.JoinsInv
import AtomOs.Proc.TableInv
import AtomOs.Proc.Children
import AtomOs.Fs.Termination
import AtomOs.Fs.Listing
import AtomOs.Fs.FileContent
import AtomOs.Fs.MakeDir
import AtomOs.Fs.PathWalk
import AtomOs.Sync.Exclusion
import AtomOs.Mem.Destroy
import AtomOs.Mem.ExpandLocks
import AtomOs.Mem.StackGrow
import AtomOs.Fs.DirPositions
import AtomOs.Buf.HashQueues
import AtomOs.Net.Stream
import AtomOs.Net.NicRx
import AtomOs.Buf.Floppy
import AtomOs.Shell.Split
import AtomOs.Shell.Environment
import AtomOs.Net.Checksum
import AtomOs.Net.TxQueue
import AtomOs.Net.PacketIds
