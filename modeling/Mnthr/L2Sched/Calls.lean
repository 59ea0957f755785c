import Mnthr.L2Sched.Ops

/-!
# The API calls that may yield

`block` is such a call from its entry to the switch back to the scheduler, or
to its return when it does not yield; `cont` is the rest of the call, run when
the thread is switched to again. `swapBack` is what `poller_resume` does once
`swapcontext` returns in the scheduler; its `eintr` argument is the value of
`errno == EINTR` there, which earlier code of the thread may have left.
-/
namespace Mnthr

/-- The unit of a relative deadline: `mnthr_sleep_usec`, `mnthr_sleep`,
`mnthr_sleep_ticks`. -/
inductive TimeUnit where
  | usec | msec | ticks
  deriving DecidableEq, Repr

/-- Ticks per unit (src/ev_poller.c:388-413). -/
def TimeUnit.scale : TimeUnit → Nat
  | .usec => 1000
  | .msec => 1000000
  | .ticks => 1

/-- mirrors src/mnthr.c:1169-1178 with src/ev_poller.c:388-413: 64-bit
arithmetic wraps. -/
def deadline (now : Nat) (u : TimeUnit) (v : Nat) : Nat :=
  if v = SLEEP_FOREVER then SLEEP_FOREVER
  else if v = 0 then SLEEP_RESUME_NOW
  else (now + v * u.scale) % 2 ^ 64

inductive Blk where
  | sleep (u : TimeUnit) (v : Nat)
  | yield
  | giveup
  | join (c : Ptr)
  | setInterruptAndJoin (c : Ptr)
  | setInterruptAndJoinWithTimeout (c : Ptr) (msec : Nat)
  | signalSubscribe (g : Nat)
  | signalSubscribeWithTimeout (g : Nat) (msec : Nat)
  | signalErrorAndJoin (g : Nat) (rc : Int)
  | condWait (i : Nat)
  | semaAcquire (i : Nat)
  | isemaWait (i : Nat)
  | rwlockAcquireRead (i : Nat)
  | rwlockAcquireWrite (i : Nat)
  | waitFor (msec : Nat) (f : Nat)
  | peek (c : Ptr) (msec : Nat)
  /-- a descriptor wait of one of the pollers; `write` or `other` as `co.state` -/
  | pollRead | pollWrite | pollOther
  deriving DecidableEq, Repr

namespace St

/-! ## Switching -/

/-- `me->co.state = st` on the way to a yield. -/
def setState (s : St) (st : CoState) : Option St :=
  s.me.map fun c => { s.setCtx c { s.ctx c with state := st } with pc := .lib c }

/-- mirrors src/poller.c:73-104, after `swapcontext` has returned. -/
def swapBack (s : St) (c : Ptr) (eintr : Bool) : Option St :=
  let s0 : St := { s with me := none, pc := .sched }
  if eintr then some { s with pc := .sched }
  else if s.me ≠ some c then none
  else if (s.ctx c).state.resumable then some s0
  else if (s.ctx c).state = .resumed then (s0.sleepqRemove c).pushFree c
  else none

/-- mirrors src/mnthr.c:1140-1166: save the context, switch to the scheduler. -/
def yieldAs (s : St) (k : Call) (eintr : Bool) : Option St :=
  s.me.bind fun c => (s.setCtx c { s.ctx c with uc := k }).swapBack c eintr

/-- mirrors src/mnthr.c:1181-1242, the four `sleep*` functions from
`expire_ticks` on. -/
def sleepUntil (s : St) (d : Nat) (k : Call) (eintr : Bool) : Option St :=
  s.me.bind fun c =>
    let s1 := s.sleepqRemove c
    let s2 := s1.setCtx c { s1.ctx c with expireTicks := d }
    (s2.sleepqEnqueue c).yieldAs k eintr

/-- mirrors src/mnthr.c:1321-1326 -/
def joinWaitq (s : St) (q : Waitq) (k : Call) (eintr : Bool) : Option St :=
  (s.appendMe q).bind fun s1 => s1.yieldAs k eintr

/-- mirrors src/mnthr.c:2381-2386 -/
def condWait (s : St) (q : Waitq) (k : Call) (eintr : Bool) : Option St :=
  (s.setState .condwait).bind fun s1 => s1.joinWaitq q k eintr

/-- The call the running thread is in returns `v` to it. -/
def complete (s : St) (v : Int) : Option St :=
  s.me.map fun c => { s with pc := .user c, ret := some ⟨some c, s.pc.call, v⟩ }

/-! ## Loops of the primitives -/

/-- mirrors src/mnthr.c:2434-2440: the wait loop of `mnthr_sema_acquire`. -/
def semaLoop (s : St) (i : Nat) (eintr : Bool) : Option St :=
  if s.objs.semaI i = 0 then s.condWait (.sema i) (.semaAcquire i) eintr
  else if 0 < s.objs.semaI i ∧ s.objs.semaI i ≤ s.objs.semaN i then
    { s with objs := s.objs.setSemaI i (s.objs.semaI i - 1) }.complete 0
  else none

/-- mirrors src/mnthr.c:2520-2526 -/
def isemaLoop (s : St) (i : Nat) (eintr : Bool) : Option St :=
  if s.objs.isemaI i < s.objs.isemaN i then s.condWait (.isema i) (.isemaWait i) eintr
  else s.complete 0

/-- mirrors src/mnthr.c:2557-2567 -/
def readLoop (s : St) (i : Nat) (eintr : Bool) : Option St :=
  if s.objs.fwriter i then s.condWait (.rwlock i) (.readLock i) eintr
  else { s with
    objs := s.objs.setNreaders i ((s.objs.nreaders i + 1) % 2 ^ 32) }.complete 0

/-- mirrors src/mnthr.c:2604-2615 -/
def writeLoop (s : St) (i : Nat) (eintr : Bool) : Option St :=
  if s.objs.fwriter i ∨ 0 < s.objs.nreaders i then s.condWait (.rwlock i) (.writeLock i) eintr
  else { s with objs := s.objs.setFwriter i true }.complete 0

/-! ## From the call to the switch -/

/-- mirrors src/mnthr.c:1245-1292 -/
def sleepCall (s : St) (d : Nat) (eintr : Bool) : Option St :=
  (s.setState .sleep).bind fun s1 => s1.sleepUntil d (.sleep d) eintr

/-- mirrors src/mnthr.c:1329-1338 -/
def join (D : Diag) (s : St) (c : Ptr) (eintr : Bool) : Option St :=
  if (s.ctx c).state.resumable then
    (s.setState .join).bind fun s1 => s1.joinWaitq (.ctx c) (.join c) eintr
  else some (s.returns D.JOIN_FAILURE)

/-- mirrors src/mnthr.c:1529-1542 -/
def setInterruptAndJoin (D : Diag) (s : St) (c : Ptr) (eintr : Bool) : Option St :=
  if (s.ctx c).state.resumable then
    (s.setInterrupt D c).bind fun s1 => (s1.setState .joinInterrupted).bind fun s2 =>
      s2.joinWaitq (.ctx c) (.interruptJoin c) eintr
  else some (s.returns D.JOIN_FAILURE)

/-- mirrors src/mnthr.c:1545-1563: the deadline is computed twice, first
before the thread enters the wait queue. -/
def setInterruptAndJoinWithTimeout (D : Diag) (s : St) (c : Ptr) (msec : Nat) (eintr : Bool) :
    Option St :=
  if (s.ctx c).state.resumable then
    (s.setInterrupt D c).bind fun s1 => (s1.setState .joinInterrupted).bind fun s2 =>
      s2.me.bind fun t =>
        let d := deadline s.now .msec msec
        let s3 := s2.setCtx t { s2.ctx t with expireTicks := d }
        (s3.appendMe (.ctx c)).bind fun s4 =>
          s4.sleepUntil d (.interruptJoinTimeout c (s4.ctx c).id) eintr
  else some (s.returns D.JOIN_FAILURE)

/-- mirrors src/mnthr.c:2289-2300 -/
def signalSubscribe (s : St) (g : Nat) (eintr : Bool) : Option St :=
  ({ s with objs := s.objs.setOwner g s.me }.setState .signalSubscribe).bind fun s1 =>
    s1.yieldAs (.subscribe g) eintr

/-- mirrors src/mnthr.c:2303-2313 -/
def signalSubscribeWithTimeout (s : St) (g : Nat) (msec : Nat) (eintr : Bool) : Option St :=
  ({ s with objs := s.objs.setOwner g s.me }.setState .signalSubscribe).bind fun s1 =>
    s1.sleepUntil (deadline s.now .msec msec) (.subscribeTimeout g) eintr

/-- mirrors src/mnthr.c:2356-2368 -/
def signalErrorAndJoin (s : St) (g : Nat) (rc : Int) (eintr : Bool) : Option St :=
  match s.objs.owner g with
  | none => some (s.returns 0)
  | some o =>
    if o ∉ s.ctxes then none
    else if (s.ctx o).state = .signalSubscribe then
      ((s.setCtx o { s.ctx o with rc := rc }).setResume o).bind fun s1 =>
        (s1.setState .joinInterrupted).bind fun s2 => s2.joinWaitq (.ctx o) (.errorJoin o) eintr
    else some (s.returns 0)

/-- mirrors src/mnthr.c:2424-2444 -/
def semaAcquire (s : St) (i : Nat) (eintr : Bool) : Option St :=
  if 0 < s.objs.semaI i then
    some ({ s with objs := s.objs.setSemaI i (s.objs.semaI i - 1) }.returns 0)
  else s.semaLoop i eintr

/-- mirrors src/mnthr.c:2513-2527 -/
def isemaWait (s : St) (i : Nat) (eintr : Bool) : Option St :=
  if 0 ≤ s.objs.isemaI i ∧ s.objs.isemaI i ≤ s.objs.isemaN i then s.isemaLoop i eintr else none

/-- mirrors src/mnthr.c:2661-2692 -/
def waitFor (s : St) (msec : Nat) (f : Nat) (eintr : Bool) : Option St :=
  (vnew s.popFree f).bind fun r =>
    let c := r.1
    (r.2.setState .waitfor).bind fun s1 => (s1.appendMe (.ctx c)).bind fun s2 =>
      (s2.setResume c).bind fun s3 =>
        s3.sleepUntil (deadline s.now .msec msec) (.waitFor c (s3.ctx c).id) eintr

/-- mirrors src/mnthr.c:2734-2744 -/
def peek (s : St) (c : Ptr) (msec : Nat) (eintr : Bool) : Option St :=
  (s.setState .peek).bind fun s1 => (s1.appendMe (.ctx c)).bind fun s2 =>
    s2.sleepUntil (deadline s.now .msec msec) (.peek c (s2.ctx c).id) eintr

/-- A descriptor wait, from `me->co.state` on (src/ev_poller.c:363-364 and alike). -/
def poll (s : St) (st : CoState) (eintr : Bool) : Option St :=
  (s.setState st).bind fun s1 => s1.yieldAs (.poll st) eintr

def block (D : Diag) (s : St) (eintr : Bool) : Blk → Option St
  | .sleep u v => if v < 2 ^ 64 then s.sleepCall (deadline s.now u v) eintr else none
  | .yield => s.sleepCall SLEEP_RESUME_NOW eintr
  | .giveup => s.sleepCall SLEEP_FOREVER eintr
  | .join c => if c ∈ s.ctxes then s.join D c eintr else none
  | .setInterruptAndJoin c => if c ∈ s.ctxes then s.setInterruptAndJoin D c eintr else none
  | .setInterruptAndJoinWithTimeout c v =>
    if c ∈ s.ctxes ∧ v < 2 ^ 64 then s.setInterruptAndJoinWithTimeout D c v eintr else none
  | .signalSubscribe g => s.signalSubscribe g eintr
  | .signalSubscribeWithTimeout g v =>
    if v < 2 ^ 64 then s.signalSubscribeWithTimeout g v eintr else none
  | .signalErrorAndJoin g rc => s.signalErrorAndJoin g rc eintr
  | .condWait i => s.condWait (.cond i) (.condWait i) eintr
  | .semaAcquire i => s.semaAcquire i eintr
  | .isemaWait i => s.isemaWait i eintr
  | .rwlockAcquireRead i => s.readLoop i eintr
  | .rwlockAcquireWrite i => s.writeLoop i eintr
  | .waitFor v f => if v < 2 ^ 64 then s.waitFor v f eintr else none
  | .peek c v => if c ∈ s.ctxes ∧ v < 2 ^ 64 then s.peek c v eintr else none
  | .pollRead => s.poll .read eintr
  | .pollWrite => s.poll .write eintr
  | .pollOther => s.poll .otherPoller eintr

/-! ## From the switch to the return -/

/-- The test a timed wait makes when it is resumed: the context it waited for
is a different thread, or none (src/mnthr.c:1565, 2699, 2745). -/
def gone (s : St) (x : Ptr) (n : Int) : Prop := (s.ctx x).id ≠ n ∨ (s.ctx x).state = .dormant

instance (s : St) (x : Ptr) (n : Int) : Decidable (s.gone x n) := by unfold gone; infer_instance

/-- mirrors src/mnthr.c:1565-1578 -/
def interruptJoinTimeoutEnd (D : Diag) (s : St) (t x : Ptr) (n : Int) : Option St :=
  if x ∉ s.ctxes then none
  else if s.gone x n then
    (s.sleepqRemove t).complete
      (if (s.ctx x).rc ≠ D.CO_RC_USER_INTERRUPTED then (s.ctx x).rc else (s.ctx t).rc)
  else if (s.ctx x).state.resumable then
    (s.removeMe (.ctx x)).bind fun s1 =>
      (s1.setCtx x { s1.ctx x with rc := D.CO_RC_TIMEDOUT }).complete
        D.WAIT_TIMEOUT
  else none

/-- mirrors src/mnthr.c:2699-2726 -/
def waitForEnd (D : Diag) (s : St) (t x : Ptr) (n : Int) : Option St :=
  if x ∉ s.ctxes then none
  else if s.gone x n then (s.sleepqRemove t).complete (s.ctx x).rc
  else if (s.ctx x).state.resumable then
    (s.removeMe (.ctx x)).bind fun s1 => (s1.setInterrupt D x).bind fun s2 =>
      (s2.setCtx x { s2.ctx x with rc := D.CO_RC_TIMEDOUT }).complete D.WAIT_TIMEOUT
  else none

/-- mirrors src/mnthr.c:2745-2768 -/
def peekEnd (D : Diag) (s : St) (t x : Ptr) (n : Int) : Option St :=
  if x ∉ s.ctxes then none
  else if s.gone x n then (s.sleepqRemove t).complete (s.ctx x).rc
  else if (s.ctx x).state.resumable then
    (s.removeMe (.ctx x)).bind fun s1 => s1.complete D.WAIT_TIMEOUT
  else none

/-- The rest of the call `k` of thread `t`; `rc` is what `yield` returned. A
descriptor wait returns a count or -1; 0 stands for any count. -/
def cont (D : Diag) (s : St) (t : Ptr) (k : Call) (eintr : Bool) : Option St :=
  let rc := (s.ctx t).rc
  match k with
  | .start | .gone => none
  | .sleep _ | .join _ | .interruptJoin _ | .errorJoin _ | .condWait _ => s.complete rc
  | .poll _ => s.complete (if rc = 0 then 0 else -1)
  | .subscribe g => { s with objs := s.objs.setOwner g none }.complete rc
  | .subscribeTimeout g =>
    { s with objs := s.objs.setOwner g none }.complete
      (if (s.ctx t).expireTicks = SLEEP_UNDEFINED then rc else D.WAIT_TIMEOUT)
  | .semaAcquire i => if rc ≠ 0 then s.complete rc else s.semaLoop i eintr
  | .isemaWait i => if rc ≠ 0 then s.complete rc else s.isemaLoop i eintr
  | .readLock i => if rc ≠ 0 then s.complete rc else s.readLoop i eintr
  | .writeLock i => if rc ≠ 0 then s.complete rc else s.writeLoop i eintr
  | .interruptJoinTimeout x n => s.interruptJoinTimeoutEnd D t x n
  | .waitFor x n => s.waitForEnd D t x n
  | .peek x n => s.peekEnd D t x n

end St
end Mnthr
