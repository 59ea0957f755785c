import Mnthr.Core.Kqueue
import Mnthr.Core.LTS
import Mnthr.L1State.Ctx

/-!
# The kevent backend

`src/kevent_poller.c`: the change list `kevents0`, the results `kevents1`,
`event_count`, the six functions that wait for a descriptor and the batch loop
of `mnthr_loop`. A wait function is cut at its `yield`: `waitBegin` is the part
before, `waitEnd` the part after; `enter` is `poller_resume` up to the next
`yield` or call of the thread it switches to.

The scheduler appears as far as the backend can tell: a thread in the sleep
queue may be resumed between two batches, whatever it was queued for, and the
thread that runs may wait elsewhere, end, or set other threads for resume or
interrupt. The value of `errno` after a switch is left out. Of kqueue: one
registration for a pair of identifier and filter, with the udata of the last
`EV_ADD`; a registration stays until `EV_DELETE`, or until the descriptor is
closed; a change that fails is reported as an `EV_ERROR` entry with its udata.
-/
namespace Mnthr
open Kqueue

/-! `<sys/event.h>`; src/mnthr.h:210-211, 255-257; src/mnthr_private.h:287 -/

def EVFILT_READ : BitVec 32 := -1
def EVFILT_WRITE : BitVec 32 := -2
def EVFILT_VNODE : BitVec 32 := -4
def NOTE_DELETE : BitVec 32 := 0x1
def NOTE_WRITE : BitVec 32 := 0x2
def NOTE_EXTEND : BitVec 32 := 0x4
def NOTE_ATTRIB : BitVec 32 := 0x8
def NOTE_RENAME : BitVec 32 := 0x20
def NOTE_REVOKE : BitVec 32 := 0x40
def MNTHR_WAIT_EVENT_READ : BitVec 32 := 0x01
def MNTHR_WAIT_EVENT_WRITE : BitVec 32 := 0x02
def MNTHR_ST_DELETE : BitVec 32 := 0x10000
def MNTHR_ST_WRITE : BitVec 32 := 0x20000
def MNTHR_ST_ATTRIB : BitVec 32 := 0x40000
def MNTHR_DEFAULT_WBUFLEN : Int := 1024 * 1024

/-- `ident` and `filter` of a `struct kevent`. -/
structure KevPair where
  ident : Int
  filter : BitVec 32
  deriving DecidableEq, Repr

abbrev KevChange := Change KevPair Ptr

instance : LawfulBEq (KevPair × Ptr) := inferInstance

/-- A build of the library: its error codes, and whether `assert` is compiled in
(src/Makefile.am:34, `-DNDEBUG`). -/
structure KevBuild extends Diag where
  asserts : Bool

/-- What a filter reports. -/
structure KevData where
  fflags : BitVec 32
  data : Int
  deriving DecidableEq, Repr

/-- An entry of `kevents1`; `error` is `flags & EV_ERROR`. -/
structure Kevent where
  pair : KevPair
  error : Bool
  udata : Ptr
  val : KevData
  deriving DecidableEq, Repr

/-- The functions that wait for a descriptor. -/
inductive KevFn where
  | statWait | getRbuflen | waitForRead | getWbuflen | waitForWrite | waitForEvents
  deriving DecidableEq, Repr

namespace KevFn

/-- The filters it registers. -/
def filters : KevFn → List (BitVec 32)
  | statWait => [EVFILT_VNODE]
  | getRbuflen | waitForRead => [EVFILT_READ]
  | getWbuflen | waitForWrite => [EVFILT_WRITE]
  | waitForEvents => [EVFILT_READ, EVFILT_WRITE]

/-- What it stores in `pdata.kev.filter`. -/
def pdataFilter : KevFn → BitVec 32
  | statWait => EVFILT_VNODE
  | getRbuflen | waitForRead => EVFILT_READ
  | getWbuflen | waitForWrite => EVFILT_WRITE
  | waitForEvents => 0

/-- `co.state` while it waits. -/
def state : KevFn → CoState
  | statWait | getRbuflen | waitForRead => .read
  | getWbuflen | waitForWrite => .write
  | waitForEvents => .otherPoller

/-- mirrors src/kevent_poller.c:396-405 -/
def statResult (fflags : BitVec 32) : Int :=
  let bit (notes res : BitVec 32) : BitVec 32 := if fflags &&& notes ≠ 0 then res else 0
  (bit (NOTE_DELETE ||| NOTE_RENAME) MNTHR_ST_DELETE |||
    bit (NOTE_WRITE ||| NOTE_EXTEND) MNTHR_ST_WRITE |||
    bit (NOTE_ATTRIB ||| NOTE_REVOKE) MNTHR_ST_ATTRIB).toInt

/-- What it returns for the entry it finds; a count is stored in an `int`. -/
def result (v : KevData) : KevFn → Int
  | statWait => statResult v.fflags
  | getRbuflen => v.data.bmod (2 ^ 32)
  | getWbuflen => (if v.data ≠ 0 then v.data else MNTHR_DEFAULT_WBUFLEN).bmod (2 ^ 32)
  | waitForRead | waitForWrite | waitForEvents => 0

/-- What it returns when `yield` returns `rc`, not 0 (src/kevent_poller.c:481,
and alike). -/
def failure (rc : Int) : KevFn → Int
  | waitForRead => rc
  | _ => -1

end KevFn

/-- A wait, with its descriptor. -/
structure KevWait where
  fn : KevFn
  fd : Int
  deriving DecidableEq, Repr

def KevWait.pairs (w : KevWait) : List KevPair := w.fn.filters.map (⟨w.fd, ·⟩)

/-- What the backend and the scheduler keep of a thread: whether `co.f` is set,
`co.state`, `co.rc`, `expire_ticks`, whether it is in the sleep queue, the wait
it is suspended in, and `pdata.kev`, with `none` for an `idx` of -1. -/
structure KevThr where
  live : Bool
  state : CoState
  rc : Int
  expireTicks : Nat
  queued : Bool
  wait : Option KevWait
  ident : Int
  filter : BitVec 32
  idx : Option Nat

/-- mirrors src/kevent_poller.c:868-874 (`poller_mnthr_ctx_init`) -/
def KevThr.clearPdata (x : KevThr) : KevThr := { x with ident := -1, filter := 0, idx := none }

def KevThr.init : KevThr := ⟨false, .dormant, 0, SLEEP_UNDEFINED, false, none, -1, 0, none⟩

/-- The result of a wait: `ok` tells the two ways out of it apart; `events` is
what `mnthr_wait_for_events` stored through its argument. -/
structure KevRet where
  thr : Ptr
  wait : KevWait
  ok : Bool
  val : Int
  events : Option (BitVec 32)
  deriving DecidableEq, Repr

/-- `kq` are the registrations, `batch` the entries of `kevents1` that the
batch loop has not processed, with their index, `ret` what the last wait
returned. -/
structure KevSt where
  thr : Ptr → KevThr
  me : Option Ptr
  kevents0 : List KevChange
  kevents1 : List Kevent
  eventCount : Int
  eventMax : Int
  kq : List (KevPair × Ptr)
  batch : List (Nat × Kevent)
  ret : Option KevRet

namespace KevSt

def init : KevSt := ⟨fun _ => .init, none, [], [], 0, 0, [], [], none⟩

def setThr (s : KevSt) (t : Ptr) (x : KevThr) : KevSt :=
  { s with thr := Function.update s.thr t x }

/-- mirrors src/kevent_poller.c:266-281 -/
def newEvent (s : KevSt) (p : KevPair) (add : Bool) (t : Ptr) : KevSt :=
  { s with kevents0 := s.kevents0 ++ [⟨p, add, t⟩] }

/-- mirrors src/kevent_poller.c:283-293 -/
def discardEvent (s : KevSt) (p : KevPair) (t : Ptr) : KevSt :=
  { s.newEvent p false t with eventCount := s.eventCount - 1 }

/-- An `EV_ADD`, and `++event_count`. -/
def addEvent (s : KevSt) (p : KevPair) (t : Ptr) : KevSt :=
  { s.newEvent p true t with eventCount := s.eventCount + 1 }

/-- mirrors src/kevent_poller.c:296-313 -/
def clearEvent (s : KevSt) (t : Ptr) : KevSt :=
  let x := s.thr t
  if x.ident = -1 then s
  else match x.state with
    | .read | .write => s.discardEvent ⟨x.ident, x.filter⟩ t
    | .otherPoller =>
      (s.discardEvent ⟨x.ident, EVFILT_READ⟩ t).discardEvent ⟨x.ident, EVFILT_WRITE⟩ t
    | _ => s

/-! ## Waiting -/

/-- mirrors src/kevent_poller.c:356-379, 415-428, 453-466, 491-504, 530-543,
569-584: up to `yield`. -/
def waitBegin (s : KevSt) (t : Ptr) (w : KevWait) : KevSt :=
  let s1 := w.pairs.foldl (fun s p => s.addEvent p t) s
  { s1.setThr t { s1.thr t with
      ident := w.fd, filter := w.fn.pdataFilter, state := w.fn.state, wait := some w } with
    me := none }

/-- The wait of `t` returns. -/
def waitReturn (s : KevSt) (t : Ptr) (x : KevThr) (r : KevRet) : KevSt :=
  { s.setThr t { x with wait := none } with ret := some r }

/-- mirrors src/kevent_poller.c:380-409, 429-449, 467-487, 505-526, 544-565,
585-604: from `yield` to the return; `none` is a `FAIL`. -/
def waitEnd (D : KevBuild) (s : KevSt) (t : Ptr) (w : KevWait) : Option KevSt :=
  let x := s.thr t
  if x.rc ≠ 0 then some (s.waitReturn t x ⟨t, w, false, w.fn.failure x.rc, none⟩)
  else if x.ident = -1 then
    some (s.waitReturn t { x with rc := D.CO_RC_USER_INTERRUPTED } ⟨t, w, false, -1, none⟩)
  else if w.fn = .waitForEvents then
    some (s.waitReturn t x.clearPdata ⟨t, w, true, 0, some x.filter⟩)
  else (x.idx.bind (s.kevents1[·]?)).map fun kev =>
    s.waitReturn t x.clearPdata ⟨t, w, true, w.fn.result kev.val, none⟩

/-! ## The scheduler -/

/-- mirrors src/poller.c:45-47, 94-95: `sleepq_remove` and `push_free_ctx`. -/
def freed (s : KevSt) (t : Ptr) : KevSt :=
  s.setThr t { (s.thr t).clearPdata with
    live := false, state := .dormant, expireTicks := SLEEP_UNDEFINED, queued := false,
    wait := none }

/-- mirrors src/poller.c:34-98: the thread is switched to, and goes on to the
end of its wait. -/
def pollerResume (D : KevBuild) (s : KevSt) (t : Ptr) : Option KevSt :=
  let x := s.thr t
  if x.state.resumable then
    let s1 := { s.setThr t { x with state := .resumed } with me := some t }
    match x.wait with
    | none => some s1
    | some w => s1.waitEnd D t w
  else some (s.freed t)

/-- mirrors src/poller.c:155-232: one thread of the sift. -/
def siftResume (D : KevBuild) (s : KevSt) (t : Ptr) : Option KevSt :=
  (s.setThr t { s.thr t with expireTicks := SLEEP_UNDEFINED, queued := false }).pollerResume D t

/-- mirrors src/mnthr.c:1424-1452 -/
def setResume (s : KevSt) (t : Ptr) : KevSt :=
  if (s.thr t).live then
    s.setThr t { s.thr t with state := .setResume, expireTicks := SLEEP_RESUME_NOW, queued := true }
  else s

/-- mirrors src/mnthr.c:1455-1482; `none` is a failed assertion. -/
def setResumeFast (D : KevBuild) (s : KevSt) (t : Ptr) : Option KevSt :=
  if (s.thr t).live then
    if D.asserts ∧ (s.thr t).expireTicks < SLEEP_RESUME_NOW then none else some (s.setResume t)
  else some s

/-- mirrors src/mnthr.c:1488-1526 -/
def setInterrupt (D : KevBuild) (s : KevSt) (t : Ptr) : KevSt :=
  if (s.thr t).live then
    let s1 := s.clearEvent t
    s1.setThr t { s1.thr t with
      rc := D.CO_RC_USER_INTERRUPTED, state := .setInterrupt, expireTicks := SLEEP_RESUME_NOW,
      queued := true }
  else s

/-! ## The event loop -/

/-- What `event_max` is set to, and the size of `kevents1`. -/
def capacity (s : KevSt) : Int := max s.eventMax s.eventCount

/-- The entries that `kevent` returns: an error for every change that failed,
then registrations with something to report. -/
def results (s : KevSt) (refused : List Bool) (fired : List (KevPair × Ptr × KevData)) :
    List Kevent :=
  (applyChanges s.kevents0 refused s.kq).2.map (fun c => ⟨c.key, true, c.udata, ⟨0, 0⟩⟩) ++
    fired.map fun f => ⟨f.1, false, f.2.1, f.2.2⟩

/-- mirrors src/kevent_poller.c:682-749, up to the batch loop: `refused` says
which `EV_ADD`s fail, `fired` which registrations are reported. -/
def kevent (s : KevSt) (refused : List Bool) (fired : List (KevPair × Ptr × KevData)) :
    Option KevSt :=
  let kq := (applyChanges s.kevents0 refused s.kq).1
  let res := s.results refused fired
  if (s.kevents0 ≠ [] ∨ s.eventCount ≠ 0) ∧ res.length ≤ s.capacity ∧
      (fired.map Prod.fst).Nodup ∧ ∀ f ∈ fired, (f.1, f.2.1) ∈ kq then
    some { s with
      kq := kq, kevents0 := [], kevents1 := res ++ s.kevents1.drop res.length,
      eventMax := s.capacity, batch := res.zipIdx.map Prod.swap }
  else none

/-- mirrors src/kevent_poller.c:682-732, when `kevent` returns -1: it has gone
through `n` changes, and the next one fails with no room in `kevents1` to report
it. The changes behind it are lost. -/
def keventError (s : KevSt) (n : Nat) (refused : List Bool) : Option KevSt :=
  let failed (n : Nat) : Int := (applyChanges (s.kevents0.take n) refused s.kq).2.length
  if failed n = s.capacity ∧ failed (n + 1) = s.capacity + 1 then
    some { s with
      kq := (applyChanges (s.kevents0.take n) refused s.kq).1, kevents0 := [],
      eventMax := s.capacity }
  else none

/-- The bit of `mnthr_wait_for_events` for a filter; `none` is a `FAIL`. -/
def waitEvent (filter : BitVec 32) : Option (BitVec 32) :=
  if filter = EVFILT_READ then some MNTHR_WAIT_EVENT_READ
  else if filter = EVFILT_WRITE then some MNTHR_WAIT_EVENT_WRITE
  else none

/-- mirrors src/kevent_poller.c:779-815: the thread of an entry. -/
def deliver (D : KevBuild) (s : KevSt) (iter : Nat) (kev : Kevent) (corc : Int) : Option KevSt :=
  let t := kev.udata
  let x := s.thr t
  if x.state = .otherPoller then
    (waitEvent kev.pair.filter).bind fun bit =>
      (s.setThr t { x with idx := none, filter := x.filter ||| bit }).setResumeFast D t
  else if x.live then (s.setThr t { x with idx := some iter, rc := corc }).pollerResume D t
  else some (s.setThr t { x with idx := some iter })

/-- mirrors src/kevent_poller.c:751-824: one iteration of the batch loop. -/
def entry (D : KevBuild) (s : KevSt) : Option KevSt :=
  match s.batch with
  | [] => none
  | (iter, kev) :: rest =>
    let s1 := { s with batch := rest }
    if kev.pair.ident = -1 then none
    else if kev.error then s1.deliver D iter kev D.CO_RC_POLLER
    else (s1.discardEvent kev.pair kev.udata).deliver D iter kev 0

/-- The registrations once the pending changes are applied. -/
def regAfter (s : KevSt) : List (KevPair × Ptr) := settle s.kevents0 s.kq

/-- The scheduler is between two batches. -/
def atTop (s : KevSt) : Prop := s.me = none ∧ s.batch = []

instance (s : KevSt) : Decidable s.atTop := by unfold atTop; infer_instance

end KevSt

/-- The states of threads that wait for something else than a descriptor. -/
def CoState.elsewhere : CoState → Bool
  | .sleep | .signalSubscribe | .join | .joinInterrupted | .condwait | .waitfor | .peek => true
  | _ => false

inductive KevEvent where
  /-- a thread is created and set for resume -/
  | spawn (t : Ptr)
  /-- the sift resumes a thread -/
  | resume (t : Ptr)
  /-- the running thread calls a wait function -/
  | wait (w : KevWait)
  /-- the running thread waits for something else, until `deadline` if it sleeps -/
  | block (st : CoState) (deadline : Option Nat)
  /-- the running thread ends -/
  | exit
  /-- somebody else sets the thread for resume, or interrupts it -/
  | wake (t : Ptr)
  | interrupt (t : Ptr)
  /-- `co.rc` is set: by the thread, by a timed wait on it, by a signal -/
  | setRc (t : Ptr) (v : Int)
  /-- a descriptor is closed -/
  | close (fd : Int)
  | kevent (refused : List Bool) (fired : List (KevPair × Ptr × KevData))
  | keventError (n : Nat) (refused : List Bool)
  | entry
  deriving DecidableEq, Repr

open KevSt in
def kevStep (D : KevBuild) (s : KevSt) : KevEvent → Option KevSt
  | .spawn t =>
    if (s.thr t).live then none
    else some (s.setThr t { KevThr.init with
      live := true, state := .setResume, expireTicks := SLEEP_RESUME_NOW, queued := true })
  | .resume t => if s.atTop ∧ (s.thr t).queued then s.siftResume D t else none
  | .wait w => s.me.map fun t => s.waitBegin t w
  | .block st deadline =>
    s.me.bind fun t =>
      if st.elsewhere then
        some { s.setThr t (match deadline with
          | none => { s.thr t with state := st }
          | some d => { s.thr t with state := st, expireTicks := d, queued := true }) with
            me := none }
      else none
  | .exit => s.me.map fun t => { s.freed t with me := none }
  | .wake t => if s.me = some t then none else some (s.setResume t)
  | .interrupt t => if s.me = some t then none else some (s.setInterrupt D t)
  | .setRc t v =>
    if s.me = some t ∨ v = D.CO_RC_TIMEDOUT ∨ (s.thr t).state = .signalSubscribe then
      some (s.setThr t { s.thr t with rc := v })
    else none
  | .close fd => some { s with kq := s.kq.filter fun x => decide (x.1.ident ≠ fd) }
  | .kevent refused fired => if s.atTop then s.kevent refused fired else none
  | .keventError n refused => if s.atTop then s.keventError n refused else none
  | .entry => if s.me = none then s.entry D else none

end Mnthr
