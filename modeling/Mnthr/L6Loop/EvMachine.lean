import Mnthr.L2Sched.EvPoller
import Mnthr.L6Loop.Machine

/-!
# The main loop over libev

`mnthr_loop` of `src/ev_poller.c` is `ev_run` with the callbacks `_prepare_cb`,
`_check_cb`, `ev_io_cb`. As in `L6Loop.Machine`, `St` is the scheduler, the other
fields are those of the backend (`L2Sched.EvPoller`), and `EvLoop.ev` is what
its functions read of a thread.

Of libev: `ev_run` invokes the prepare watcher, polls, invokes the check watcher
and then the callbacks of the pending watchers, in any order, and begins again
until `ev_break`; only started watchers get pending, and `ev_io_stop` drops the
event of a pending one. `etimer` has a callback that does nothing; its interval
is a `double` in the code and one of three cases here (`EvTimer`).

Not modelled: the texts written to the console, `mnthr_stat_wait`, and the event
of a watcher that libev itself has stopped, for a descriptor that is not open.
-/
namespace Mnthr

/-- `co.state` in the wait (src/ev_poller.c:546, 604, 653, 715, 760). -/
def EvFn.state : EvFn → CoState
  | .getRbuflen | .waitForRead => .read
  | .getWbuflen | .waitForWrite => .write
  | .waitForEvents => .otherPoller

/-- `etimer.repeat`: the time to the first deadline in ticks, 2^-20 s, 59 s. -/
inductive EvTimer where
  | ahead (ticks : Nat)
  | soon
  | far
  deriving DecidableEq, Repr

/-- Where `ev_run` is. -/
inductive EvLoopPc where
  /-- not called, or returned -/
  | out
  /-- before the prepare watcher -/
  | top
  /-- in `poller_sift_sleepq`, called by `_prepare_cb` -/
  | sift
  /-- at the poll, with `etimer` started -/
  | poll (timer : EvTimer)
  /-- invoking the pending watchers -/
  | pending
  deriving DecidableEq, Repr

structure EvLoop where
  st : St
  item : Nat → EvItem
  table : List Nat
  brk : Nat
  pdata : Ptr → Option Nat
  frame : Ptr → Option Frame
  ret : Option (Ptr × Int)
  pendings : List Nat
  shutdown : Bool
  pc : EvLoopPc

inductive EvLoopEvent where
  /-- `mnthr_loop` is called -/
  | call
  /-- `_prepare_cb` begins, and with it a sift -/
  | prepare (v : Nat)
  /-- a thread goes on, or code outside the loop calls the API -/
  | thread (e : Event)
  /-- the running thread calls a function that waits for a descriptor -/
  | wait (fn : EvFn) (fd : Int) (eintr : Bool)
  /-- such a function goes on after its `yield`; `n` is what `ioctl` says -/
  | back (n : Int) (eintr : Bool)
  /-- `mnthr_shutdown` -/
  | shutdown
  /-- the sift is over, and the timer is started -/
  | timer
  /-- libev polls; the events of the watchers `ws` are pending -/
  | poll (v : Nat) (ws : List Nat)
  /-- `ev_io_cb` of a pending watcher -/
  | event (w : Nat)
  /-- nothing is pending any more -/
  | done
  deriving DecidableEq, Repr

/-- mirrors src/ev_poller.c:941-975 -/
def St.etimer (s : St) : EvTimer :=
  match s.earliest with
  | some c =>
    let d := (s.ctx c).expireTicks
    if s.now < d then .ahead (d - s.now) else .soon
  | none => .far

namespace EvLoop

def init (objs : Objs) (now : Nat) : EvLoop where
  st := .init objs now
  item _ := ⟨0, 0, false, none⟩
  table := []
  brk := 0
  pdata _ := none
  frame _ := none
  ret := none
  pendings := []
  shutdown := false
  pc := .out

/-! ## The backend -/

/-- What the functions of the backend read. -/
def ev (l : EvLoop) : EvSt where
  item := l.item
  table := l.table
  brk := l.brk
  pdata := l.pdata
  frame := l.frame
  live t := (l.st.ctx t).f.isSome
  rc t := (l.st.ctx t).rc
  ret := l.ret

/-- What a function of the backend has written, but for the fields of the
scheduler. The event of a stopped watcher is dropped. -/
def keep (l : EvLoop) (k : EvSt) : EvLoop :=
  { l with
    item := k.item, table := k.table, brk := k.brk, pdata := k.pdata, frame := k.frame,
    ret := k.ret, pendings := l.pendings.filter fun w => (k.item w).active }

/-- `poller_clear_event` within `mnthr_set_interrupt` (src/mnthr.c:1503-1516) -/
def clearEvent (l : EvLoop) (t : Ptr) : EvLoop :=
  if (l.st.ctx t).f = none then l else l.keep (l.ev.clearEvent t)

/-- `poller_mnthr_ctx_init` within `mnthr_ctx_finalize` (src/mnthr.c:764) -/
def clearPdata (l : EvLoop) (t : Ptr) : EvLoop :=
  { l with pdata := Function.update l.pdata t none }

/-- The running thread, between two calls. -/
def caller (l : EvLoop) : Option Ptr :=
  match l.st.pc with
  | .user t => some t
  | _ => none

/-- The wait that the running thread is switched back to. -/
def waitOf (l : EvLoop) : Option (Ptr × Frame) :=
  match l.st.pc with
  | .post t (.poll _) => (l.frame t).map fun F => (t, F)
  | _ => none

/-- Another thread waits for the same (src/ev_poller.c:527-537 and alike). -/
def refuses (H : UInt64 → Int → UInt64) (l : EvLoop) (t : Ptr) (fn : EvFn) (fd : Int) : Bool :=
  let r := l.ev.ioItemGet H fd fn.mask
  match (r.2.item r.1).data with
  | some u => decide (u ≠ t)
  | none => false

/-! ## The loop -/

/-- Code outside the loop, or a thread between two calls, may call the API. -/
def mayCall (l : EvLoop) : Prop :=
  match l.st.pc with
  | .user _ => True
  | _ => l.pc = .out

instance (l : EvLoop) : Decidable l.mayCall := by unfold mayCall; split <;> infer_instance

theorem mayCall.out {l : EvLoop} (h : l.mayCall) (hpc : l.st.pc = .sched) : l.pc = .out := by
  simpa only [mayCall, hpc] using h

/-- The events of the scheduler that are neither the loop's own statements nor
part of a wait for a descriptor; `timecounter_now` is set by the callbacks alone. -/
def mayRun (l : EvLoop) (e : Event) : Prop :=
  e.ofBackend = false ∧ (e = .next → l.pc = .sift) ∧
    match e with
    | .call _ => l.mayCall
    | .cont _ => l.waitOf = none
    | .tick _ => False
    | _ => True

instance (l : EvLoop) (e : Event) : Decidable (l.mayRun e) :=
  match e with
  | .call _ | .block .. | .cont _ | .exit _ | .sift | .next | .tick _ | .pollResume ..
  | .pollFast _ => instDecidableAnd

/-- What a step does to the scheduler. -/
def parts (H : UInt64 → Int → UInt64) (l : EvLoop) : EvLoopEvent → List Event
  | .prepare v => if l.shutdown then [] else [.tick v, .sift]
  | .thread e => [e]
  | .wait fn fd b =>
    match l.caller with
    | some t => if l.refuses H t fn fd then [.call (.pollFail true)] else [.block fn.state.waiting b]
    | none => []
  | .back _ b => [.cont b]
  | .shutdown => [.call (.spawn uyuyuy)]
  | .poll v _ => [.tick v]
  | .event w => (l.item w).data.toList.map fun c => .pollResume c none
  | _ => []

/-- What a step does outside the scheduler; `pdata` of a context is cleared when
it is finalized. -/
def backend (D : Diag) (H : UInt64 → Int → UInt64) (l : EvLoop) : EvLoopEvent → Option EvLoop
  | .call => if l.pc = .out then some { l with pc := .top } else none
  | .prepare _ =>
    if l.pc = .top then some { l with pc := if l.shutdown then .out else .sift } else none
  | .thread e =>
    if l.mayRun e then
      some ((l.st.finalizes e).foldl clearPdata ((l.st.interrupts e).foldl clearEvent l))
    else none
  | .wait fn fd _ => l.caller.map fun t => l.keep (l.ev.waitBegin D H fn t fd)
  | .back n _ => l.waitOf.bind fun (t, F) => (l.ev.waitEnd H t F n).map l.keep
  | .shutdown => if l.mayCall then some { l with shutdown := true } else none
  | .timer =>
    if l.pc = .sift ∧ l.st.pc = .sched ∧ l.st.tmp = [] ∧ l.st.runq = [] then
      some { l with pc := .poll l.st.etimer }
    else none
  | .poll _ ws =>
    match l.pc with
    | .poll _ =>
      if ws.Nodup ∧ ∀ w ∈ ws, w ∈ l.table ∧ (l.item w).active then
        some { l with pendings := ws, pc := .pending }
      else none
    | _ => none
  | .event w =>
    if l.pc = .pending ∧ l.st.pc = .sched ∧ w ∈ l.pendings then
      (l.ev.ioCb w).map fun k =>
        ((l.parts H (.event w)).flatMap l.st.finalizes).foldl clearPdata (l.keep k)
    else none
  | .done =>
    if l.pc = .pending ∧ l.st.pc = .sched ∧ l.pendings = [] then some { l with pc := .top }
    else none

def step (D : Diag) (H : UInt64 → Int → UInt64) (l : EvLoop) (e : EvLoopEvent) : Option EvLoop :=
  (l.backend D H e).bind fun l1 =>
    (exec (St.step D) l.st (l.parts H e)).map fun s => { l1 with st := s }

end EvLoop
end Mnthr
