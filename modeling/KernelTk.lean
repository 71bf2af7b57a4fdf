import KernelTk.Sched.Accounting
import KernelTk.Sched.Release
import KernelTk.Sched.Semaphore
import KernelTk.Sched.Waiters
import KernelTk.Sched.TaskState
import KernelTk.Sched.Resume
import KernelTk.Sched.Commits
import KernelTk.Sched.Recency
import KernelTk.Sched.Overriders
import KernelTk.Sched.Marks
import KernelTk.Sched.MutexViews
import KernelTk.Sched.Paused
import KernelTk.Sched.Traces
import KernelTk.Sched.Announced
import KernelTk.Sched.ProcessPrims
import KernelTk.Sched.Handover
import KernelTk.Sched.Exits
import KernelTk.Sched.Destroy
import KernelTk.Sched.Faults
import KernelTk.Sched.Deadlock
import KernelTk.Sched.Registries
import KernelTk.Sched.Isolation
import KernelTk.Loader.Relocations
import KernelTk.Loader.Writes
import KernelTk.Loader.Exports
import KernelTk.Loader.Reorder
import KernelTk.Loader.References
import KernelTk.Loader.Linking
import KernelTk.Taskman.Contexts
import KernelTk.Loader.Confinement
