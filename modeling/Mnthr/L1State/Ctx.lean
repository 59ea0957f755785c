import Mnthr.L1State.Sleepq

/-!
# Contexts, wait queues and the state of the library

`src/mnthr_private.h:69-238` and the globals of `src/mnthr.c:113-130`. A
context is a record at an address; its `sleepq_bucket` lives in `Sleepq` and
its membership of wait queues in `WaitQs`, which holds the queues and the
back pointers `hosting_waitq` side by side, as the source does: nothing here
says that they agree.

The saved `ucontext_t` of a thread is the library call it is suspended in
(`Call`), with the locals that call needs after it is switched back to. `Pc`
says who executes: the scheduler, a thread between library calls, a thread in
a library call.

Not modelled: `co.name`, `co.argv`, `co.cld`, `co.stack` and `pdata` (the
descriptor state of the two pollers), which no function here reads.
-/
namespace Mnthr

/-- mirrors src/mnthr_private.h:83-96 -/
inductive CoState where
  | dormant | resumed | read | write | sleep | otherPoller | setResume | setInterrupt
  | signalSubscribe | join | joinInterrupted | condwait | waitfor | peek
  deriving DecidableEq, Repr

/-- mirrors src/mnthr_private.h:98-114: `CO_STATE_RESUMABLE`. -/
def CoState.resumable : CoState → Bool
  | .dormant | .resumed => false
  | _ => true

theorem resumable_ne {st : CoState} (h : st.resumable) : st ≠ .dormant ∧ st ≠ .resumed := by
  cases st <;> simp_all [CoState.resumable]

/-- A wait queue, by address: the `waitq` of a context, of a condition
variable, or of the condition variable inside a semaphore, an inverted
semaphore or a readers-writer lock. -/
inductive Waitq where
  | ctx (c : Ptr)
  | cond (i : Nat)
  | sema (i : Nat)
  | isema (i : Nat)
  | rwlock (i : Nat)
  deriving DecidableEq, Repr

/-- Library error codes, `MNDIAG_PUBLIC_CODE` of mndiag: only their sign is
documented (src/mnthr_private.h:142-144, "all negative"). -/
structure Diag where
  publicCode : Nat → Nat → Int
  neg : ∀ c n, publicCode c n < 0

namespace Diag
variable (D : Diag)

/-! src/mnthr.h:54-71, 144-157 -/

def WAIT_TIMEOUT : Int := D.publicCode 129 1
def JOIN_FAILURE : Int := D.publicCode 129 2
def RWLOCK_TRY_ACQUIRE_READ_FAIL : Int := D.publicCode 129 3
def RWLOCK_TRY_ACQUIRE_WRITE_FAIL : Int := D.publicCode 129 4
def SEMA_TRY_ACQUIRE_FAIL : Int := D.publicCode 129 5
def CO_RC_USER_INTERRUPTED : Int := D.publicCode 130 2
def CO_RC_TIMEDOUT : Int := D.publicCode 130 3
def CO_RC_SIMULTANEOUS : Int := D.publicCode 130 4
def CO_RC_POLLER : Int := D.publicCode 130 5

theorem ne_zero (c n : Nat) : D.publicCode c n ≠ 0 := Int.ne_of_lt (D.neg c n)

end Diag

/-- What a saved `ucontext_t` goes on with when it is switched to. `start` is
the entry point (`makecontext`). `gone` is a context that was switched to and
has not saved itself since: its frame is in use or was left for good, and
switching to it again is undefined. -/
inductive Call where
  | start
  | gone
  | sleep (deadline : Nat)
  | join (c : Ptr)
  | interruptJoin (c : Ptr)
  | interruptJoinTimeout (c : Ptr) (id : Int)
  | subscribe (g : Nat)
  | subscribeTimeout (g : Nat)
  | errorJoin (c : Ptr)
  | condWait (i : Nat)
  | semaAcquire (i : Nat)
  | isemaWait (i : Nat)
  | readLock (i : Nat)
  | writeLock (i : Nat)
  | waitFor (c : Ptr) (id : Int)
  | peek (c : Ptr) (id : Int)
  | poll (st : CoState)
  deriving DecidableEq, Repr

/-- The wait queue a call suspends in. -/
def Call.queue : Call → Option Waitq
  | .join c | .interruptJoin c | .interruptJoinTimeout c _ | .errorJoin c
  | .waitFor c _ | .peek c _ => some (.ctx c)
  | .condWait i => some (.cond i)
  | .semaAcquire i => some (.sema i)
  | .isemaWait i => some (.isema i)
  | .readLock i | .writeLock i => some (.rwlock i)
  | _ => none

/-- The context a timed wait looks at again when it is resumed, with the id it
remembers. -/
def Call.target : Call → Option (Ptr × Int)
  | .interruptJoinTimeout c n | .waitFor c n | .peek c n => some (c, n)
  | _ => none

/-- mirrors src/mnthr_private.h:69-238. `prio` says which function
`sleepq_enqueue` points to: `sleepq_insert` when set, `sleepq_append` when not. -/
structure Ctx where
  id : Int
  f : Option Nat
  abac : Nat
  state : CoState
  rc : Int
  expireTicks : Nat
  prio : Bool
  uc : Call

/-- mirrors src/mnthr.c:650-697 (`mnthr_ctx_init`) -/
def Ctx.init : Ctx := ⟨-1, none, 0, .dormant, 0, SLEEP_UNDEFINED, false, .gone⟩

/-- The fields of a finalized context (src/mnthr.c:713-735, 748-750): `abac`,
`rc` and the saved context stay. -/
def Ctx.cleared (x : Ctx) : Ctx :=
  { x with expireTicks := SLEEP_UNDEFINED, prio := false, id := -1, f := none, state := .dormant }

/-! ## Wait queues -/

structure WaitQs where
  queue : Waitq → List Ptr
  hosting : Ptr → Option Waitq

namespace WaitQs

def empty : WaitQs := ⟨fun _ => [], fun _ => none⟩

def setQueue (w : WaitQs) (q : Waitq) (l : List Ptr) : WaitQs :=
  { w with queue := Function.update w.queue q l }

def setHosting (w : WaitQs) (c : Ptr) (o : Option Waitq) : WaitQs :=
  { w with hosting := Function.update w.hosting c o }

/-- `DTQUEUE_REMOVE(q, waitq_link, c)` -/
def unlink (w : WaitQs) (q : Waitq) (c : Ptr) : WaitQs := w.setQueue q ((w.queue q).erase c)

/-- Out of the queue that `hosting_waitq` names, if any. -/
def leave (w : WaitQs) (c : Ptr) : WaitQs :=
  match w.hosting c with
  | some q => w.unlink q c
  | none => w

/-- mirrors src/mnthr.c:1295-1304 (`append_me_to_waitq`) -/
def append (w : WaitQs) (q : Waitq) (c : Ptr) : WaitQs :=
  let w1 := w.leave c
  (w1.setQueue q (w1.queue q ++ [c])).setHosting c (some q)

end WaitQs

/-! ## The state -/

/-- Who executes. -/
inductive Pc where
  /-- the scheduler: between slices, or outside `mnthr_loop` -/
  | sched
  /-- thread `c`, between library calls -/
  | user (c : Ptr)
  /-- thread `c`, in a library call that is on its way to `yield` -/
  | lib (c : Ptr)
  /-- thread `c`, switched back to inside call `k` -/
  | post (c : Ptr) (k : Call)
  deriving DecidableEq, Repr

def Pc.runs : Pc → Option Ptr
  | .user c | .lib c | .post c _ => some c
  | .sched => none

/-- The call a thread was switched back to. -/
def Pc.call : Pc → Option Call
  | .post _ k => some k
  | _ => none

/-- The result of a library call, as its caller sees it: who called, the
suspended call that returned (`none` for a call that did not yield), the value. -/
structure Ret where
  thr : Option Ptr
  call : Option Call
  val : Int
  deriving DecidableEq, Repr

/-- Semaphores, inverted semaphores, readers-writer locks and signals of the
program, by address. `nreaders` is an `unsigned`. -/
structure Objs where
  semaN : Nat → Int
  semaI : Nat → Int
  isemaN : Nat → Int
  isemaI : Nat → Int
  nreaders : Nat → Nat
  fwriter : Nat → Bool
  owner : Nat → Option Ptr

/-- The globals, and the locals of `poller_sift_sleepq` (`runq`,
`sleepq_bucket_tmp`, `now`) that outlive a slice.

`ctxes` are the allocated contexts in array order; addresses from `brk` on
were never allocated. `gcRest` is what `mnthr_gc` leaves of its `tmp_list`:
contexts whose `free_link` still links them to each other, outside
`free_list`. `ret` is the result of the last library call that returned.

Ghost field: `waitqOk` is set to false when the comparison that the asserts in
`remove_me_from_waitq` and `resume_waitq_*` are written for (`hosting_waitq`
equals `waitq`) would fail; the code assigns there instead. -/
structure St where
  ctx : Ptr → Ctx
  ctxes : List Ptr
  brk : Ptr
  coId : Int
  freeList : List Ptr
  gcRest : List Ptr
  sleepq : Sleepq
  wq : WaitQs
  objs : Objs
  me : Option Ptr
  pc : Pc
  runq : List Ptr
  tmp : List Ptr
  siftNow : Nat
  now : Nat
  ret : Option Ret
  waitqOk : Bool

namespace St

/-- After `mnthr_init`, with the program's semaphores initialised to the
counts of `objs`. -/
def init (objs : Objs) (now : Nat) : St where
  ctx _ := Ctx.init
  ctxes := []
  brk := 0
  coId := 0
  freeList := []
  gcRest := []
  sleepq := .empty
  wq := .empty
  objs := objs
  me := none
  pc := .sched
  runq := []
  tmp := []
  siftNow := 0
  now := now
  ret := none
  waitqOk := true

def setCtx (s : St) (c : Ptr) (x : Ctx) : St := { s with ctx := Function.update s.ctx c x }

/-- The part of the current sift batch that has not been resumed: the rest of
the bucket being served, then each host in the run queue with its bucket. -/
def pending (s : St) : List Ptr := s.tmp ++ s.runq.flatMap fun h => h :: s.sleepq.bucket h

/-- `!DTQUEUE_ORPHAN(&free_list, free_link, c)` -/
def linked (s : St) (c : Ptr) : Prop :=
  c ∈ s.freeList ∨ (c ∈ s.gcRest ∧ 2 ≤ s.gcRest.length)

instance (s : St) (c : Ptr) : Decidable (s.linked c) := by unfold linked; infer_instance

end St

end Mnthr
