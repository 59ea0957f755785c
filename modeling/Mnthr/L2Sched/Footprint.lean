import Mnthr.L2Sched.Machine

/-!
# What an event does to contexts other than the running one

Read off the state before the event: the context it creates, the contexts it
applies `set_resume` or `mnthr_set_interrupt` to, the threads it takes off a
wait queue, the deadline it computes. The conditions under which the results
of this development hold are stated with these.
-/
namespace Mnthr

def Event.eintr : Event → Bool
  | .block _ b | .cont b | .exit b => b
  | _ => false

/-- The context that the event looks at with `mnthr_peek`. -/
def Event.peeks : Event → Option Ptr
  | .block (.peek c _) _ => some c
  | _ => none

/-- The context whose priority or reference count the event sets. -/
def Event.sets : Event → Option Ptr
  | .call (.setPrio c _) | .call (.incabac c) | .call (.decabac c) => some c
  | _ => none

/-- The state of a thread that waits for a descriptor. -/
def CoState.polling : CoState → Bool
  | .read | .write | .otherPoller => true
  | _ => false

/-- The state of a thread that may be in the sleep queue. -/
def CoState.queueable (st : CoState) : Bool := st.resumable && !st.polling

/-- The calls that wait in a loop: switched back to, they may wait again. -/
def Call.loops : Call → Bool
  | .semaAcquire _ | .isemaWait _ | .readLock _ | .writeLock _ => true
  | _ => false

namespace St

/-- The context the sift resumes next. -/
def nextPick (s : St) : Option Ptr := (s.tmp ++ s.runq).head?

/-- The context that a thread created by the event gets. -/
def creates (s : St) : Event → Option Ptr
  | .call (.new _) | .call (.spawn _) | .block (.waitFor _ _) _ => some s.popFree.1
  | .call (.newSig _) | .call (.spawnSig _) => some s.brk
  | _ => none

/-- The subscriber of signal `g`, when it is still waiting. -/
def subscriber (s : St) (g : Nat) : List Ptr :=
  (s.objs.owner g).toList.filter fun o => (s.ctx o).state == .signalSubscribe

/-- Contexts to which `set_resume` is applied without taking them off a wait
queue: threads that are started, and subscribers that are signalled. -/
def starts (s : St) : Event → List Ptr
  | .call (.run c) => if (s.ctx c).state = .dormant then [c] else []
  | .call (.spawn f) => (s.creates (.call (.spawn f))).toList
  | .call (.spawnSig f) => (s.creates (.call (.spawnSig f))).toList
  | .block (.waitFor v f) b => (s.creates (.block (.waitFor v f) b)).toList
  | .call (.signalSend g) | .call (.signalError g _) | .block (.signalErrorAndJoin g _) _ =>
    s.subscriber g
  | .pollFast c => [c]
  | _ => []

/-- `c`, unless it is the caller: nobody can interrupt himself. -/
def notMe (s : St) (c : Ptr) : List Ptr := if s.me = some c then [] else [c]

/-- Contexts to which `mnthr_set_interrupt` is applied. -/
def interrupts (s : St) : Event → List Ptr
  | .call (.setInterrupt c) => s.notMe c
  | .block (.setInterruptAndJoin c) _ | .block (.setInterruptAndJoinWithTimeout c _) _ =>
    if (s.ctx c).state.resumable then s.notMe c else []
  | .cont _ =>
    match s.pc with
    | .post _ (.waitFor x n) => if s.gone x n then [] else s.notMe x
    | _ => []
  | _ => []

def wakesOne (s : St) (q : Waitq) : List (Waitq × Ptr) := ((s.wq.queue q).take 1).map (q, ·)

def wakesAll (s : St) (q : Waitq) : List (Waitq × Ptr) := (s.wq.queue q).map (q, ·)

/-- Threads that `resume_waitq_one` or `resume_waitq_all` takes off a wait
queue, with the queue. -/
def wakes (s : St) : Event → List (Waitq × Ptr)
  | .call (.condSignalOne i) => s.wakesOne (.cond i)
  | .call (.condSignalAll i) | .call (.condFini i) => s.wakesAll (.cond i)
  | .call (.semaRelease i) => s.wakesOne (.sema i)
  | .call (.semaFini i) => s.wakesAll (.sema i)
  | .call (.isemaAcquire i) => s.wakesOne (.isema i)
  | .call (.isemaFini i) => s.wakesAll (.isema i)
  | .call (.rwlockReleaseRead i) => s.wakesOne (.rwlock i)
  | .call (.rwlockReleaseWrite i) | .call (.rwlockFini i) => s.wakesAll (.rwlock i)
  | .call .gc => s.gcReleased.flatMap fun c => s.wakesAll (.ctx c)
  | .exit false => (s.pc.runs.toList).flatMap fun c => s.wakesAll (.ctx c)
  | .next => (s.nextPick.toList).flatMap fun c =>
    if (s.ctx c).state.resumable then [] else s.wakesAll (.ctx c)
  | .pollResume c _ => if (s.ctx c).state.resumable then [] else s.wakesAll (.ctx c)
  | _ => []

/-- Every context that the event sets for resume or interrupt. -/
def touched (s : St) (e : Event) : List Ptr :=
  s.starts e ++ s.interrupts e ++ (s.wakes e).map Prod.snd

/-- The key under which the event puts the running thread in the sleep queue. -/
def deadlineOf (s : St) : Event → Option Nat
  | .block (.sleep u v) _ => some (deadline s.now u v)
  | .block .yield _ => some SLEEP_RESUME_NOW
  | .block .giveup _ => some SLEEP_FOREVER
  | .block (.setInterruptAndJoinWithTimeout _ v) _ | .block (.signalSubscribeWithTimeout _ v) _
  | .block (.waitFor v _) _ | .block (.peek _ v) _ => some (deadline s.now .msec v)
  | _ => none

/-- The call in which the event may suspend the running thread. -/
def suspends (s : St) : Event → Option Call
  | .block (.sleep u v) _ => some (.sleep (deadline s.now u v))
  | .block .yield _ => some (.sleep SLEEP_RESUME_NOW)
  | .block .giveup _ => some (.sleep SLEEP_FOREVER)
  | .block (.join c) _ => if (s.ctx c).state.resumable then some (.join c) else none
  | .block (.setInterruptAndJoin c) _ =>
    if (s.ctx c).state.resumable then some (.interruptJoin c) else none
  | .block (.setInterruptAndJoinWithTimeout c _) _ =>
    if (s.ctx c).state.resumable then some (.interruptJoinTimeout c (s.ctx c).id) else none
  | .block (.signalSubscribe g) _ => some (.subscribe g)
  | .block (.signalSubscribeWithTimeout g _) _ => some (.subscribeTimeout g)
  | .block (.signalErrorAndJoin g _) _ => (s.subscriber g).head?.map .errorJoin
  | .block (.condWait i) _ => some (.condWait i)
  | .block (.semaAcquire i) _ => some (.semaAcquire i)
  | .block (.isemaWait i) _ => some (.isemaWait i)
  | .block (.rwlockAcquireRead i) _ => some (.readLock i)
  | .block (.rwlockAcquireWrite i) _ => some (.writeLock i)
  | .block (.waitFor _ _) _ => some (.waitFor s.popFree.1 s.coId)
  | .block (.peek c _) _ => some (.peek c (s.ctx c).id)
  | .block .pollRead _ => some (.poll .read)
  | .block .pollWrite _ => some (.poll .write)
  | .block .pollOther _ => some (.poll .otherPoller)
  | .cont _ => s.pc.call.filter Call.loops
  | _ => none

/-- The context that a poller resumes at once. -/
def polled (s : St) : Event → Option Ptr
  | .pollResume c _ => if (s.ctx c).f = none then none else some c
  | _ => none

/-- Contexts whose `co.rc` the event may set to 0, other than by creating a
thread in them. -/
def rcWrites (s : St) : Event → List Ptr
  | .call (.setRetval _) => s.me.toList
  | .call (.signalError g _) | .block (.signalErrorAndJoin g _) _ => s.subscriber g
  | .pollResume c (some _) => [c]
  | .call .gc => s.gcReleased
  | _ => []

end St
end Mnthr
