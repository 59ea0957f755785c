import Mnthr.L2Sched.Lib

/-!
# The API calls that return without a switch

One constructor of `Op` per public function; `callOp` is what it does. A
context argument must be allocated (`∈ ctxes`): a pointer to a context that
`mnthr_gc` has freed is not an input the library can be given.
-/
namespace Mnthr

inductive Op where
  | new (f : Nat)
  | newSig (f : Nat)
  | spawn (f : Nat)
  | spawnSig (f : Nat)
  | run (c : Ptr)
  | setInterrupt (c : Ptr)
  | setPrio (c : Ptr) (flag : Bool)
  | incabac (c : Ptr)
  | decabac (c : Ptr)
  | setRetval (rv : Int)
  | signalInit (g : Nat) (c : Ptr)
  | signalFini (g : Nat)
  | signalSend (g : Nat)
  | signalError (g : Nat) (rc : Int)
  | condSignalOne (i : Nat)
  | condSignalAll (i : Nat)
  | condFini (i : Nat)
  | semaTryAcquire (i : Nat)
  | semaRelease (i : Nat)
  | semaFini (i : Nat)
  | isemaAcquire (i : Nat)
  | isemaRelease (i : Nat)
  | isemaFini (i : Nat)
  | rwlockTryAcquireRead (i : Nat)
  | rwlockReleaseRead (i : Nat)
  | rwlockTryAcquireWrite (i : Nat)
  | rwlockReleaseWrite (i : Nat)
  | rwlockFini (i : Nat)
  | gc
  /-- a descriptor wait that fails without a switch, or marks its failure after
  one (src/ev_poller.c:351, src/kevent_poller.c:388 and alike) -/
  | pollFail (simultaneous : Bool)
  deriving DecidableEq, Repr

namespace Objs

def setSemaI (o : Objs) (i : Nat) (v : Int) : Objs := { o with semaI := Function.update o.semaI i v }
def setIsemaI (o : Objs) (i : Nat) (v : Int) : Objs := { o with isemaI := Function.update o.isemaI i v }
def setNreaders (o : Objs) (i v : Nat) : Objs := { o with nreaders := Function.update o.nreaders i v }
def setFwriter (o : Objs) (i : Nat) (b : Bool) : Objs := { o with fwriter := Function.update o.fwriter i b }
def setOwner (o : Objs) (g : Nat) (c : Option Ptr) : Objs := { o with owner := Function.update o.owner g c }

/-- `n` and `i` of a finalized semaphore are -1 (src/mnthr.c:2479-2480). -/
def semaFini (o : Objs) (i : Nat) : Objs :=
  { o with semaN := Function.update o.semaN i (-1), semaI := Function.update o.semaI i (-1) }

/-- mirrors src/mnthr.c:2534-2535 -/
def isemaFini (o : Objs) (i : Nat) : Objs :=
  { o with isemaN := Function.update o.isemaN i (-1), isemaI := Function.update o.isemaI i (-1) }

/-- mirrors src/mnthr.c:2649-2650 -/
def rwlockFini (o : Objs) (i : Nat) : Objs := (o.setNreaders i 0).setFwriter i false

end Objs

namespace St

/-- A call that did not yield returns `v`. -/
def returns (s : St) (v : Int) : St := { s with ret := some ⟨s.me, none, v⟩ }

/-- mirrors src/mnthr.c:1390-1421 -/
def spawn (p : Ptr × St) (f : Nat) : Option St := (vnew p f).bind fun r => r.2.run r.1

/-- mirrors src/mnthr.c:2323-2341 -/
def signalSend (s : St) (g : Nat) : Option St :=
  match s.objs.owner g with
  | none => some s
  | some o =>
    if o ∉ s.ctxes then none
    else if (s.ctx o).state = .signalSubscribe then s.setResume o
    else some s

/-- mirrors src/mnthr.c:2344-2353 -/
def signalError (s : St) (g : Nat) (rc : Int) : Option St :=
  match s.objs.owner g with
  | none => some s
  | some o =>
    if o ∉ s.ctxes then none
    else if (s.ctx o).state = .signalSubscribe then
      (s.setCtx o { s.ctx o with rc := rc }).setResume o
    else some s

/-- mirrors src/mnthr.c:2403-2408 -/
def condFini (s : St) (q : Waitq) : Option St :=
  (s.resumeWaitqAll q).map fun s1 => { s1 with wq := s1.wq.setQueue q [] }

/-- mirrors src/mnthr.c:2463-2472 -/
def semaRelease (s : St) (i : Nat) : Option St :=
  if 0 ≤ s.objs.semaI i ∧ s.objs.semaI i < s.objs.semaN i then
    (s.resumeWaitqOne (.sema i)).map fun s1 =>
      { s1 with objs := s1.objs.setSemaI i (s1.objs.semaI i + 1) }
  else none

/-- mirrors src/mnthr.c:2496-2502 -/
def isemaAcquire (s : St) (i : Nat) : Option St :=
  if 0 ≤ s.objs.isemaI i ∧ s.objs.isemaI i ≤ s.objs.isemaN i then
    { s with objs := s.objs.setIsemaI i (s.objs.isemaI i + 1) }.resumeWaitqOne (.isema i)
  else none

/-- mirrors src/mnthr.c:2505-2510 -/
def isemaRelease (s : St) (i : Nat) : Option St :=
  if 0 ≤ s.objs.isemaI i - 1 ∧ s.objs.isemaI i - 1 ≤ s.objs.isemaN i then
    some { s with objs := s.objs.setIsemaI i (s.objs.isemaI i - 1) }
  else none

/-- mirrors src/mnthr.c:2587-2596; `nreaders` is unsigned and wraps. -/
def rwlockReleaseRead (s : St) (i : Nat) : Option St :=
  if s.objs.fwriter i then none
  else
    let n := (s.objs.nreaders i + (2 ^ 32 - 1)) % 2 ^ 32
    let s1 := { s with objs := s.objs.setNreaders i n }
    if n = 0 then s1.resumeWaitqOne (.rwlock i) else some s1

/-- mirrors src/mnthr.c:2635-2642 -/
def rwlockReleaseWrite (s : St) (i : Nat) : Option St :=
  if s.objs.fwriter i ∧ s.objs.nreaders i = 0 then
    { s with objs := s.objs.setFwriter i false }.resumeWaitqAll (.rwlock i)
  else none

/-- mirrors src/mnthr.c: 953-984 (`new`, `newSig`), 1371-1421 (`run`, `spawn`,
`spawnSig`), 504-508, 1122-1134, 1075-1083, 2261-2272, 2389-2408, 2447-2481,
2496-2536, 2572-2651, each line by line. -/
def callOp (D : Diag) (s : St) : Op → Option St
  | .new f => (vnew s.popFree f).map Prod.snd
  | .newSig f => (vnew s.ctxNew f).map Prod.snd
  | .spawn f => spawn s.popFree f
  | .spawnSig f => spawn s.ctxNew f
  | .run c => if c ∈ s.ctxes then s.run c else none
  | .setInterrupt c => if c ∈ s.ctxes then s.setInterrupt D c else none
  | .setPrio c b => if c ∈ s.ctxes then some (s.setCtx c { s.ctx c with prio := b }) else none
  | .incabac c =>
    if c ∈ s.ctxes then
      some (s.setCtx c { s.ctx c with abac := ((s.ctx c).abac + 1) % 2 ^ 32 })
    else none
  | .decabac c =>
    if c ∈ s.ctxes ∧ 0 < (s.ctx c).abac then
      some (s.setCtx c { s.ctx c with abac := (s.ctx c).abac - 1 })
    else none
  | .setRetval rv =>
    s.me.map fun c => (s.returns (s.ctx c).rc).setCtx c { s.ctx c with rc := rv }
  | .signalInit g c =>
    if c ∈ s.ctxes then some { s with objs := s.objs.setOwner g (some c) } else none
  | .signalFini g => some { s with objs := s.objs.setOwner g none }
  | .signalSend g => s.signalSend g
  | .signalError g rc => s.signalError g rc
  | .condSignalOne i => s.resumeWaitqOne (.cond i)
  | .condSignalAll i => s.resumeWaitqAll (.cond i)
  | .condFini i => s.condFini (.cond i)
  | .semaTryAcquire i =>
    if 0 < s.objs.semaI i then
      some ({ s with objs := s.objs.setSemaI i (s.objs.semaI i - 1) }.returns 0)
    else some (s.returns D.SEMA_TRY_ACQUIRE_FAIL)
  | .semaRelease i => s.semaRelease i
  | .semaFini i => (s.condFini (.sema i)).map fun s1 => { s1 with objs := s1.objs.semaFini i }
  | .isemaAcquire i => s.isemaAcquire i
  | .isemaRelease i => s.isemaRelease i
  | .isemaFini i => (s.condFini (.isema i)).map fun s1 => { s1 with objs := s1.objs.isemaFini i }
  | .rwlockTryAcquireRead i =>
    if s.objs.fwriter i then some (s.returns D.RWLOCK_TRY_ACQUIRE_READ_FAIL)
    else some ({ s with
      objs := s.objs.setNreaders i ((s.objs.nreaders i + 1) % 2 ^ 32) }.returns 0)
  | .rwlockReleaseRead i => s.rwlockReleaseRead i
  | .rwlockTryAcquireWrite i =>
    if s.objs.fwriter i ∨ 0 < s.objs.nreaders i then
      some (s.returns D.RWLOCK_TRY_ACQUIRE_WRITE_FAIL)
    else some ({ s with objs := s.objs.setFwriter i true }.returns 0)
  | .rwlockReleaseWrite i => s.rwlockReleaseWrite i
  | .rwlockFini i => (s.condFini (.rwlock i)).map fun s1 => { s1 with objs := s1.objs.rwlockFini i }
  | .gc => s.gc
  | .pollFail simultaneous =>
    s.me.map fun c => s.setCtx c { s.ctx c with
      rc := if simultaneous then D.CO_RC_SIMULTANEOUS else D.CO_RC_USER_INTERRUPTED }

end St
end Mnthr
