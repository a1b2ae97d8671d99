import DosKernel.Bcache.Failing
import DosKernel.Cgroup.Delegation
import DosKernel.Cgroup.Freezing
import DosKernel.Config.Settings
import DosKernel.CowRef.Holders
import DosKernel.Cron.Schedule
import DosKernel.Drv.Grants
import DosKernel.Epoll.Oneshot
import DosKernel.Eventfd.Counter
import DosKernel.Exfat.Volume
import DosKernel.Fifo.Stream
import DosKernel.Flock.Table
import DosKernel.Getdents.Listing
import DosKernel.Identity.Lineage
import DosKernel.Itimer.Schedule
import DosKernel.Net.Dhcp
import DosKernel.Net.Routes
import DosKernel.Net.Dns
import DosKernel.Net.Tcp.Close
import DosKernel.Net.Tcp.Ownership
import DosKernel.Net.Tcp.Pair
import DosKernel.Net.Tcp.Reclaim
import DosKernel.Net.Tcp.Stall
import DosKernel.Pcache.Runs
import DosKernel.PidNs.Reaper
import DosKernel.Pmm.Below
import DosKernel.Sched.Ownership
import DosKernel.Sched.Scheduling
import DosKernel.Sched.Waiters
import DosKernel.Sched.Zombies
import DosKernel.Signal.Masks
import DosKernel.Swap.Runs
import DosKernel.Users.Admin
import DosKernel.Users.Identities
import DosKernel.Usock.EndOfFile
import DosKernel.Vfs.Accounting
import DosKernel.Vfs.Canon
import DosKernel.Vfs.Inheritance
import DosKernel.Vfs.Isolation
import DosKernel.Vfs.Permission
import DosKernel.Vfs.References
import DosKernel.Vma.Break
import DosKernel.Vmm.Clone
import DosKernel.Wayland.Server
