import Mnthr.L1State.Ctx

/-!
# Library functions that do not yield

`src/mnthr.c`: setting a context for resume, wait-queue primitives, creation,
finalization and reclaiming of contexts, and the operations on signals,
condition variables, semaphores and locks that return without a switch.

`none` is a failed `assert`, a `FAIL`, or an undefined access (a null `me`);
the program ends there. The asserts on `hosting_waitq` are written with a
single `=` (src/mnthr.c:1311, 1347, 1362): they assign, and cannot fail; what
the comparison would have said is kept in `waitqOk`.
-/
namespace Mnthr
namespace St

/-! ## Sleep queue -/

/-- mirrors src/mnthr.c:287-390 -/
def sleepqRemove (s : St) (c : Ptr) : St :=
  { s with sleepq := s.sleepq.remove (s.ctx c).expireTicks c }

/-- `ctx->sleepq_enqueue(ctx)` -/
def sleepqEnqueue (s : St) (c : Ptr) : St :=
  { s with sleepq := s.sleepq.enqueue (s.ctx c).prio (s.ctx c).expireTicks c }

/-- The way into the sleep queue that `set_resume` and `mnthr_set_interrupt`
share: drop an old reference, store `x` with `expire_ticks` set to resume now,
enqueue. -/
def queueNow (s : St) (c : Ptr) (x : Ctx) : St :=
  ((s.sleepqRemove c).setCtx c { x with expireTicks := SLEEP_RESUME_NOW }).sleepqEnqueue c

/-- mirrors src/mnthr.c:1424-1452 -/
def setResume (s : St) (c : Ptr) : Option St :=
  if s.me = some c then none
  else if (s.ctx c).f = none then some s
  else some (s.queueNow c { s.ctx c with state := .setResume })

/-- mirrors src/mnthr.c:1455-1482 -/
def setResumeFast (s : St) (c : Ptr) : Option St :=
  if s.me = some c then none
  else if (s.ctx c).f = none then some s
  else if (s.ctx c).expireTicks < SLEEP_RESUME_NOW then none
  else
    let s1 := s.setCtx c { s.ctx c with state := .setResume, expireTicks := SLEEP_RESUME_NOW }
    some { s1 with sleepq := s1.sleepq.insertOnce SLEEP_RESUME_NOW c }

/-- mirrors src/mnthr.c:1488-1526 (`poller_clear_event` touches descriptor
state only) -/
def setInterrupt (D : Diag) (s : St) (c : Ptr) : Option St :=
  if s.me = some c then none
  else if (s.ctx c).f = none then some s
  else some (s.queueNow c { s.ctx c with rc := D.CO_RC_USER_INTERRUPTED, state := .setInterrupt })

/-! ## Wait queues -/

/-- mirrors src/mnthr.c:1295-1304 -/
def appendMe (s : St) (q : Waitq) : Option St :=
  s.me.map fun c => { s with wq := s.wq.append q c }

/-- mirrors src/mnthr.c:1307-1314 -/
def removeMe (s : St) (q : Waitq) : Option St :=
  s.me.map fun c => { s with
    wq := (s.wq.unlink q c).setHosting c none,
    waitqOk := s.waitqOk && (s.wq.hosting c == some q) }

/-- The head of `q` taken off the queue (src/mnthr.c:1362-1365). -/
def dequeue (s : St) (q : Waitq) (t : Ptr) (rest : List Ptr) : St :=
  { s with
    wq := (s.wq.setQueue q rest).setHosting t none,
    waitqOk := s.waitqOk && (s.wq.hosting t == some q) }

/-- mirrors src/mnthr.c:1356-1368 -/
def resumeWaitqOne (s : St) (q : Waitq) : Option St :=
  match s.wq.queue q with
  | [] => some s
  | t :: rest => (s.dequeue q t rest).setResume t

def resumeWaitqN : Nat → St → Waitq → Option St
  | 0, s, _ => some s
  | n + 1, s, q => (s.resumeWaitqOne q).bind fun s1 => resumeWaitqN n s1 q

/-- mirrors src/mnthr.c:1341-1353: every iteration takes one thread off the
queue and none adds one, so the loop runs `length` times. -/
def resumeWaitqAll (s : St) (q : Waitq) : Option St := resumeWaitqN (s.wq.queue q).length s q

/-! ## Contexts -/

/-- mirrors src/mnthr.c:738-765 -/
def finalize (s : St) (c : Ptr) : Option St :=
  ((s.setCtx c (s.ctx c).cleared).resumeWaitqAll (.ctx c)).map fun s1 =>
    { s1 with wq := ((s1.wq.setQueue (.ctx c) []).leave c).setHosting c none }

/-- mirrors src/mnthr.c:144-151 -/
def pushFree (s : St) (c : Ptr) : Option St :=
  (s.finalize c).map fun s1 => { s1 with freeList := s1.freeList ++ [c] }

/-- The context `mnthr_ctx_pop_free` would take from `free_list`. -/
def firstFree (s : St) : Option Ptr := s.freeList.find? fun c => (s.ctx c).abac == 0

/-- mirrors src/mnthr.c:794-802 -/
def ctxNew (s : St) : Ptr × St :=
  (s.brk, { s.setCtx s.brk Ctx.init with ctxes := s.ctxes ++ [s.brk], brk := s.brk + 1 })

/-- mirrors src/mnthr.c:805-824 -/
def popFree (s : St) : Ptr × St :=
  match s.firstFree with
  | some c => (c, { s.setCtx c { s.ctx c with rc := 0 } with freeList := s.freeList.erase c })
  | none => s.ctxNew

/-- mirrors src/mnthr.c:900-951 (`VNEW_BODY`). `co_id` is an `int`. -/
def vnew (p : Ptr × St) (f : Nat) : Option (Ptr × St) :=
  let c := p.1
  let s := p.2
  if (s.ctx c).id ≠ -1 then none
  else some (c, { s.setCtx c { s.ctx c with id := s.coId, f := some f, uc := .start } with
    coId := (s.coId + 1).bmod (2 ^ 32) })

/-- mirrors src/mnthr.c:1581-1585 (`mnthr_is_dead`) -/
def isDead (s : St) (c : Ptr) : Bool := (s.ctx c).id == -1

/-- mirrors src/mnthr.c:1371-1387 -/
def run (s : St) (c : Ptr) : Option St :=
  if (s.ctx c).state ≠ .dormant then none else s.setResume c

/-- mirrors src/mnthr.c:768-779, 858: one context released by `mnthr_gc`. A
running context would lose the stack under its feet (`munmap`). -/
def ctxFini (s : St) (c : Ptr) : Option St :=
  if s.pc.runs = some c then none
  else (s.finalize c).map fun s1 =>
    { s1.setCtx c { s1.ctx c with rc := 0 } with ctxes := s1.ctxes.erase c }

/-- The contexts `mnthr_gc` looks at: those with a linked `free_link`. -/
def gcSeen (s : St) : List Ptr := s.ctxes.filter fun c => decide (s.linked c)

def gcPinned (s : St) : List Ptr := s.gcSeen.filter fun c => decide (0 < (s.ctx c).abac)

def gcReleased (s : St) : List Ptr := s.gcSeen.filter fun c => (s.ctx c).abac == 0

def ctxFiniAll : List Ptr → St → Option St
  | [], s => some s
  | c :: cs, s => (s.ctxFini c).bind (ctxFiniAll cs)

/-- mirrors src/mnthr.c:828-892. The loop that moves `tmp_list` to `free_list`
reads `free_link.next` of a context it has just enqueued at the tail, and ends
after the first one. -/
def gc (s : St) : Option St :=
  if ∀ c ∈ s.gcSeen, (s.ctx c).id = -1 then
    (ctxFiniAll s.gcReleased s).map fun s1 =>
      { s1 with freeList := s.gcPinned.take 1, gcRest := s.gcPinned.drop 1 }
  else none

end St
end Mnthr
