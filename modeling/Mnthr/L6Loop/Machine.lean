import Mnthr.L2Sched.Footprint
import Mnthr.L2Sched.Kevent
import Mnthr.L5Runs.Deadlines

/-!
# The main loop

`mnthr_loop` of `src/kevent_poller.c`, with the scheduler and the backend that
it drives: `St` is the scheduler (`L2Sched.Machine`), the other fields are
those that the backend keeps of its own (`L2Sched.Kevent`). A thread has one
record here; `Loop.kev` is what the functions of the backend read of it.

A step is one statement of the loop, or one event of a thread that runs in it.
What it does to the scheduler is a list of events of `St` (`Loop.parts`), so a
run of the loop is one of the scheduler (`loop_projects`); `backend` is what it
does to the rest. The answers of the kernel come with the labels. Assumed of
it: the changes are applied before anything else fails; a call without a
timeout ends with an event, one with a timeout that is not a valid interval
reports the changes that failed or fails itself.

Not modelled: the texts written to the console, and `USE_TSC`.
-/
namespace Mnthr
open Kqueue

/-- `pdata.kev` of a context; `none` for an `idx` of -1. -/
structure KevPdata where
  ident : Int
  filter : BitVec 32
  idx : Option Nat

/-- mirrors src/kevent_poller.c:868-874 (`poller_mnthr_ctx_init`) -/
def KevPdata.init : KevPdata := ⟨-1, 0, none⟩

/-- Where `mnthr_loop` is. -/
inductive LoopPc where
  /-- not called, or returned -/
  | out
  /-- at the test of the `while` -/
  | top
  /-- in `poller_sift_sleepq` -/
  | sift
  /-- at `kevent` or `nanosleep`, with the timeout -/
  | wait (tmout : Option Timespec)
  /-- in the batch loop -/
  | batch
  deriving DecidableEq, Repr

/-- `kevres` is also what `mnthr_loop` returned last. -/
structure Loop where
  st : St
  pdata : Ptr → KevPdata
  waits : Ptr → Option KevWait
  kevents0 : List KevChange
  kevents1 : List Kevent
  eventCount : Int
  eventMax : Int
  kq : List (KevPair × Ptr)
  batch : List (Nat × Kevent)
  ret : Option KevRet
  shutdown : Bool
  pc : LoopPc
  kevres : Int

/-- What `kevent` does: it returns entries; or it returns -1 with all changes
applied, interrupted by a signal (`eintr`) or because of the timeout; or it
returns -1 at a change that fails with no room to report it. -/
inductive KevAnswer where
  | entries (refused : List Bool) (fired : List (KevPair × Ptr × KevData))
  | failed (eintr : Bool) (refused : List Bool)
  | full (n : Nat) (refused : List Bool)
  deriving DecidableEq, Repr

inductive LoopEvent where
  /-- `mnthr_loop` is called -/
  | call
  /-- the test of the `while`; the clock is updated and a sift begins -/
  | test (v : Nat)
  /-- a thread goes on, or code outside the loop calls the API -/
  | thread (e : Event)
  /-- the running thread waits for a descriptor -/
  | wait (w : KevWait) (eintr : Bool)
  /-- `mnthr_shutdown` -/
  | shutdown
  /-- a descriptor is closed -/
  | close (fd : Int)
  /-- the sift is over, and the timeout is computed -/
  | timeout
  /-- the call of `kevent`, and the clock -/
  | kevent (v : Nat) (a : KevAnswer)
  /-- nothing to pass to `kevent`; `failure` is how `nanosleep` fails, if it
  does: `some true` for `EINTR` -/
  | idle (failure : Option Bool)
  /-- one iteration of the batch loop -/
  | entry
  /-- the batch loop ends -/
  | done
  deriving DecidableEq, Repr

/-- The call of the scheduler for a descriptor wait in state `st`. -/
def CoState.waiting : CoState → Blk
  | .read => .pollRead
  | .write => .pollWrite
  | _ => .pollOther

/-- A call that the backend makes itself. -/
def Event.ofBackend : Event → Bool
  | .call (.pollFail _) | .block .pollRead _ | .block .pollWrite _ | .block .pollOther _ => true
  | .sift | .pollResume .. | .pollFast _ => true
  | _ => false

/-- A relative timeout that the kernel accepts. -/
def Timespec.Valid (t : Timespec) : Prop := 0 ≤ t.sec ∧ 0 ≤ t.nsec ∧ t.nsec < 1000000000

instance (t : Timespec) : Decidable t.Valid := by unfold Timespec.Valid; infer_instance

/-- The function that `mnthr_shutdown` starts a thread with. -/
def uyuyuy : Nat := 0

namespace St

/-- The contexts that the event finalizes. -/
def finalizes (s : St) : Event → List Ptr
  | .exit false => s.pc.runs.toList
  | .next => s.nextPick.toList.filter fun c => !(s.ctx c).state.resumable
  | .pollResume c _ => [c].filter fun c => (s.ctx c).f.isSome && !(s.ctx c).state.resumable
  | .call .gc => s.gcReleased
  | _ => []

end St

namespace Loop

def init (objs : Objs) (now : Nat) : Loop where
  st := .init objs now
  pdata _ := .init
  waits _ := none
  kevents0 := []
  kevents1 := []
  eventCount := 0
  eventMax := 0
  kq := []
  batch := []
  ret := none
  shutdown := false
  pc := .out
  kevres := 0

/-! ## The backend -/

/-- What the functions of the backend read of a thread. -/
def thr (l : Loop) (t : Ptr) : KevThr :=
  let x := l.st.ctx t
  let p := l.pdata t
  { live := x.f.isSome, state := x.state, rc := x.rc, expireTicks := x.expireTicks,
    queued := decide (t ∈ l.st.sleepq.all ∨ t ∈ l.st.pending), wait := l.waits t,
    ident := p.ident, filter := p.filter, idx := p.idx }

def kev (l : Loop) : KevSt where
  thr := l.thr
  me := l.st.me
  kevents0 := l.kevents0
  kevents1 := l.kevents1
  eventCount := l.eventCount
  eventMax := l.eventMax
  kq := l.kq
  batch := l.batch
  ret := l.ret

/-- What a function of the backend has written, but for the fields of the
scheduler. -/
def keep (l : Loop) (k : KevSt) : Loop :=
  { l with
    pdata := fun t => ⟨(k.thr t).ident, (k.thr t).filter, (k.thr t).idx⟩
    waits := fun t => (k.thr t).wait
    kevents0 := k.kevents0, kevents1 := k.kevents1, eventCount := k.eventCount,
    eventMax := k.eventMax, kq := k.kq, batch := k.batch, ret := k.ret }

/-- `poller_clear_event` within `mnthr_set_interrupt` (src/mnthr.c:1503-1516) -/
def clearEvent (l : Loop) (t : Ptr) : Loop :=
  if (l.st.ctx t).f = none then l else l.keep (l.kev.clearEvent t)

/-- `poller_mnthr_ctx_init` within `mnthr_ctx_finalize` (src/mnthr.c:764) -/
def clearPdata (l : Loop) (t : Ptr) : Loop :=
  { l with pdata := Function.update l.pdata t .init, waits := Function.update l.waits t none }

def setPdata (l : Loop) (t : Ptr) (p : KevPdata) : Loop :=
  { l with pdata := Function.update l.pdata t p }

/-- The wait that the running thread is switched back to. -/
def waitOf (l : Loop) : Option (Ptr × KevWait) :=
  match l.st.pc with
  | .post t (.poll _) => (l.waits t).map fun w => (t, w)
  | _ => none

/-- The wait was interrupted before its changes got to `kevent`
(src/kevent_poller.c:388-394 and alike). -/
def waitLost (l : Loop) (t : Ptr) : Bool :=
  decide ((l.st.ctx t).rc = 0 ∧ (l.pdata t).ident = -1)

/-! ## The loop -/

/-- Code outside the loop, or a thread between two calls, may call the API. -/
def mayCall (l : Loop) : Prop :=
  match l.st.pc with
  | .user _ => True
  | _ => l.pc = .out

instance (l : Loop) : Decidable l.mayCall := by unfold mayCall; split <;> infer_instance

theorem mayCall.out {l : Loop} (h : l.mayCall) (hpc : l.st.pc = .sched) : l.pc = .out := by
  simpa only [mayCall, hpc] using h

/-- The events of the scheduler that are not the loop's own statements. -/
def mayRun (l : Loop) (e : Event) : Prop :=
  e.ofBackend = false ∧ (e = .next → l.pc = .sift) ∧
    match e with
    | .call _ | .tick _ => l.mayCall
    | _ => True

instance (l : Loop) (e : Event) : Decidable (l.mayRun e) := by
  unfold mayRun
  cases e <;> infer_instance

/-- Something to pass to `kevent` (src/kevent_poller.c:682). -/
def passes (l : Loop) : Prop := l.kevents0 ≠ [] ∨ l.eventCount ≠ 0

instance (l : Loop) : Decidable l.passes := by unfold passes; infer_instance

/-- What the kernel may answer to a call with timeout `tmout`. -/
def answers (l : Loop) (tmout : Option Timespec) : KevAnswer → Prop
  | .entries refused fired =>
    let res := l.kev.results refused fired
    match tmout with
    | none => res ≠ [] ∨ l.kev.capacity = 0
    | some t => t.Valid ∨ (fired = [] ∧ res ≠ [])
  | .failed eintr refused =>
    (applyChanges l.kevents0 refused l.kq).2 = [] ∧
      (eintr = false → ∃ t ∈ tmout, ¬ t.Valid)
  | .full .. => True

instance (l : Loop) (tmout : Option Timespec) (a : KevAnswer) : Decidable (l.answers tmout a) := by
  unfold answers
  cases a with
  | entries => cases tmout <;> infer_instance
  | failed => exact inferInstance
  | full => exact inferInstance

/-- mirrors src/kevent_poller.c:697-749: `kevent` and its result, up to the
batch loop. -/
def kevent (l : Loop) (tmout : Option Timespec) : KevAnswer → Option Loop
  | .entries refused fired =>
    let res := l.kev.results refused fired
    (l.kev.kevent refused fired).map fun k => { l.keep k with
      kevres := res.length
      pc := if res = [] ∧ l.eventCount = 0 then (if tmout.isSome then .top else .out)
        else .batch }
  | .failed eintr refused =>
    some { l with
      kq := (applyChanges l.kevents0 refused l.kq).1, kevents0 := [],
      eventMax := l.kev.capacity, kevres := -1,
      pc := if eintr ∨ l.eventCount = 0 then .top else .out }
  | .full n refused =>
    (l.kev.keventError n refused).map fun k =>
      { l.keep k with kevres := -1, pc := if l.eventCount = 0 then .top else .out }

/-- mirrors src/kevent_poller.c:822-853: the branch without `kevent`. -/
def idle (l : Loop) (failure : Option Bool) : Option Timespec → Option Loop
  | none => some { l with kevres := 0, pc := .out }
  | some t =>
    if t.sec = 0 ∧ t.nsec = 0 then some { l with pc := .top }
    else if failure = some false ↔ ¬ t.Valid then
      some { l with
        kevres := if failure.isSome then -1 else 0
        pc := if failure = some false then .out else .top }
    else none

/-- `udata` and the index of the entry that the batch loop is at, with what it
stores in `co.rc` (src/kevent_poller.c:751-778). -/
def current (D : KevBuild) (l : Loop) : Option (Nat × Kevent × Int) :=
  l.batch.head?.map fun x => (x.1, x.2, if x.2.error then D.CO_RC_POLLER else 0)

/-- mirrors src/kevent_poller.c:751-815, but for the resume; `none` is a
`FAIL`. -/
def entry (l : Loop) : Option Loop :=
  match l.batch with
  | [] => none
  | (iter, kev) :: rest =>
    if kev.pair.ident = -1 then none
    else
      let l1 := { l with batch := rest }
      let l2 := if kev.error then l1 else l1.keep (l1.kev.discardEvent kev.pair kev.udata)
      let p := l2.pdata kev.udata
      if (l.st.ctx kev.udata).state = .otherPoller then
        (KevSt.waitEvent kev.pair.filter).map fun bit =>
          l2.setPdata kev.udata { p with idx := none, filter := p.filter ||| bit }
      else some (l2.setPdata kev.udata { p with idx := some iter })

/-- What a step does to the scheduler. -/
def parts (D : KevBuild) (l : Loop) : LoopEvent → List Event
  | .test v => if l.shutdown then [] else [.tick v, .sift]
  | .thread (.cont b) =>
    match l.waitOf with
    | some (t, _) => if l.waitLost t then [.cont b, .call (.pollFail false)] else [.cont b]
    | none => [.cont b]
  | .thread e => [e]
  | .wait w b => [.block w.fn.state.waiting b]
  | .shutdown => [.call (.spawn uyuyuy)]
  | .kevent v _ => [.tick v]
  | .entry =>
    match l.current D with
    | some (_, kev, rc) =>
      if (l.st.ctx kev.udata).state = .otherPoller then [.pollFast kev.udata]
      else [.pollResume kev.udata (some rc)]
    | none => []
  | _ => []

/-- What a step does outside the scheduler; `pdata` of a context is cleared when
it is finalized. -/
def backend (D : KevBuild) (l : Loop) : LoopEvent → Option Loop
  | .call => if l.pc = .out then some { l with pc := .top, kevres := 0 } else none
  | .test _ =>
    if l.pc = .top then some { l with pc := if l.shutdown then .out else .sift } else none
  | .thread e =>
    if l.mayRun e then
      match e, l.waitOf with
      | .cont _, some (t, w) => (l.kev.waitEnd D t w).map l.keep
      | _, _ => some ((l.st.finalizes e).foldl clearPdata ((l.st.interrupts e).foldl clearEvent l))
    else none
  | .wait w _ => l.st.me.map fun t => l.keep (l.kev.waitBegin t w)
  | .shutdown => if l.mayCall then some { l with shutdown := true } else none
  | .close fd => if l.mayCall then
      some { l with kq := l.kq.filter fun x => decide (x.1.ident ≠ fd) } else none
  | .timeout =>
    if l.pc = .sift ∧ l.st.pc = .sched ∧ l.st.tmp = [] ∧ l.st.runq = [] then
      some { l with pc := .wait l.st.timeout }
    else none
  | .kevent _ a =>
    match l.pc with
    | .wait tmout => if l.passes ∧ l.answers tmout a then l.kevent tmout a else none
    | _ => none
  | .idle failure =>
    match l.pc with
    | .wait tmout => if l.passes then none else l.idle failure tmout
    | _ => none
  | .entry =>
    if l.pc = .batch ∧ l.st.pc = .sched then
      l.entry.map fun l1 => ((l.parts D .entry).flatMap l.st.finalizes).foldl clearPdata l1
    else none
  | .done =>
    if l.pc = .batch ∧ l.st.pc = .sched ∧ l.batch = [] then some { l with pc := .top } else none

def step (D : KevBuild) (l : Loop) (e : LoopEvent) : Option Loop :=
  (l.backend D e).bind fun l1 =>
    (exec (St.step D.toDiag) l.st (l.parts D e)).map fun s => { l1 with st := s }

end Loop
end Mnthr
