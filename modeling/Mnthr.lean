import Mnthr.Core.Dtqueue
import Mnthr.Core.LTS
import Mnthr.Core.OrdMap
import Mnthr.L1State.Sleepq
import Mnthr.L3Micro.Clock
import Mnthr.L4Inv.Line
import Mnthr.L4Inv.Locks
import Mnthr.L4Inv.Multimap
import Mnthr.L4Inv.Serving
import Mnthr.L4Inv.Kevent
import Mnthr.L4Inv.InsertOnce
import Mnthr.L4Inv.Standing
import Mnthr.L5Runs.ByteCounts
import Mnthr.L5Runs.Deadlines
import Mnthr.L5Runs.EvPoller
import Mnthr.L5Runs.EvStat
import Mnthr.L5Runs.Fifo
import Mnthr.L5Runs.Fini
import Mnthr.L5Runs.Gc
import Mnthr.L5Runs.Idents
import Mnthr.L5Runs.Interrupts
import Mnthr.L5Runs.Isema
import Mnthr.L5Runs.KevRegs
import Mnthr.L5Runs.KevResumes
import Mnthr.L5Runs.Pins
import Mnthr.L5Runs.Places
import Mnthr.L5Runs.ReadLoops
import Mnthr.L5Runs.Residue
import Mnthr.L5Runs.ResumeFast
import Mnthr.L5Runs.Rwlock
import Mnthr.L5Runs.Sema
import Mnthr.L5Runs.Sendfile
import Mnthr.L5Runs.Sleep
import Mnthr.L5Runs.Sift
import Mnthr.L5Runs.Slice
import Mnthr.L5Runs.Sockets
import Mnthr.L5Runs.Stacks
import Mnthr.L5Runs.Subscribe
import Mnthr.L5Runs.Teardown
import Mnthr.L5Runs.WaitEvents
import Mnthr.L5Runs.WaitFor
import Mnthr.L5Runs.Waitqs
import Mnthr.L5Runs.Wakeups
import Mnthr.L5Runs.WriteLoops
import Mnthr.L6Loop.Machine
import Mnthr.L6Loop.Phases
import Mnthr.L6Loop.Blocking
import Mnthr.L6Loop.Turns
import Mnthr.L6Loop.Lateness
import Mnthr.L6Loop.Polls
import Mnthr.L6Loop.Views
import Mnthr.L6Loop.Deeds
import Mnthr.L6Loop.Backend
import Mnthr.L6Loop.Switches
import Mnthr.L6Loop.Refinement
import Mnthr.L6Loop.Stalls
import Mnthr.L6Loop.EvMachine
import Mnthr.L6Loop.EvPhases
import Mnthr.L6Loop.EvRefinement
import Mnthr.L6Loop.EvServing
