import Mnthr.L2Sched.Calls
import Mnthr.Core.LTS

/-!
# The scheduler, and the machine

`poller_resume` and `poller_sift_sleepq` (src/poller.c), cut at the points
where a thread runs, together with everything the threads may do. `step` is
one event; threads run arbitrary code, so any API call is enabled whenever a
thread is between calls, and so is its exit. A run is `exec (step D)` over a
list of events.

The two pollers appear as two events: `pollResume` is a delivered descriptor
event (libev leaves `co.rc` alone, kevent writes it first), `pollFast` the
deferred resume of the kevent batch loop. Neither poller checks that the
context it resumes is waiting for a descriptor, so neither does the event.
-/
namespace Mnthr

inductive Event where
  /-- a call that does not yield, by the running thread or outside `mnthr_loop` -/
  | call (op : Op)
  /-- a call that may yield, by the running thread -/
  | block (op : Blk) (eintr : Bool)
  /-- the thread that was switched to goes on inside its call -/
  | cont (eintr : Bool)
  /-- the running thread's function returns -/
  | exit (eintr : Bool)
  /-- `poller_sift_sleepq` begins: expired hosts move to `runq` -/
  | sift
  /-- the sift resumes the next context of its batch -/
  | next
  /-- the clock is updated -/
  | tick (v : Nat)
  | pollResume (c : Ptr) (rc : Option Int)
  | pollFast (c : Ptr)
  deriving DecidableEq, Repr

namespace St

/-- mirrors src/poller.c:52-66: the context is switched to. -/
def enter (s : St) (c : Ptr) : Option St :=
  let x := s.ctx c
  match x.uc with
  | .gone => none
  | .start => some { s.setCtx c { x with state := .resumed } with me := some c, pc := .user c }
  | k => some { s.setCtx c { x with state := .resumed, uc := .gone } with
      me := some c, pc := .post c k }

/-- mirrors src/poller.c:34-66, up to the switch. -/
def pollerResume (s : St) (c : Ptr) : Option St :=
  if (s.ctx c).state.resumable then s.enter c else (s.sleepqRemove c).pushFree c

/-- mirrors src/poller.c:124-153: hosts with `expire_ticks < now` leave the trie. -/
def sift (s : St) : Option St :=
  if s.pc = .sched ∧ s.runq = [] ∧ s.tmp = [] then
    let expired := fun h => decide ((s.ctx h).expireTicks < s.now)
    some { s with
      siftNow := s.now, runq := s.sleepq.trie.front expired,
      sleepq := { s.sleepq with trie := s.sleepq.trie.popWhile expired } }
  else none

def clearExpire (s : St) (c : Ptr) : St :=
  s.setCtx c { s.ctx c with expireTicks := SLEEP_UNDEFINED }

/-- `sleepq_bucket_tmp` loses its head (src/poller.c:196-204). -/
def popTmp (s : St) (c : Ptr) (rest : List Ptr) : St :=
  { s with tmp := rest }.clearExpire c

/-- `runq` loses its head, whose bucket becomes `sleepq_bucket_tmp`
(src/poller.c:159-187). -/
def popRunq (s : St) (c : Ptr) (rest : List Ptr) : St :=
  { s with
    runq := rest, tmp := s.sleepq.bucket c, sleepq := s.sleepq.setBucket c [] }.clearExpire c

/-- mirrors src/poller.c:155-232: one `poller_resume` of the batch. -/
def next (s : St) : Option St :=
  if s.pc ≠ .sched then none
  else match s.tmp, s.runq with
    | c :: rest, _ => if c ∈ s.ctxes then (s.popTmp c rest).pollerResume c else none
    | [], c :: rest => if c ∈ s.ctxes then (s.popRunq c rest).pollerResume c else none
    | [], [] => none

/-- mirrors src/ev_poller.c:794-845, src/kevent_poller.c:798-806 -/
def pollResume (s : St) (c : Ptr) (rc : Option Int) : Option St :=
  if s.pc = .sched ∧ c ∈ s.ctxes then
    if (s.ctx c).f = none then some s
    else (match rc with
      | some v => s.setCtx c { s.ctx c with rc := v }
      | none => s).pollerResume c
  else none

/-- mirrors src/kevent_poller.c:780-797 -/
def pollFast (s : St) (c : Ptr) : Option St :=
  if s.pc = .sched ∧ c ∈ s.ctxes ∧ (s.ctx c).state = .otherPoller then s.setResumeFast c else none

/-- Code that calls the API without yielding runs in a thread between calls,
or outside `mnthr_loop`. -/
def mayCall (s : St) : Bool :=
  match s.pc with
  | .user c => decide (c ∈ s.ctxes)
  | .sched => s.runq.isEmpty && s.tmp.isEmpty
  | _ => false

def step (D : Diag) (s : St) : Event → Option St
  | .call op => if s.mayCall then s.callOp D op else none
  | .block op eintr =>
    match s.pc with
    | .user c => if c ∈ s.ctxes then s.block D eintr op else none
    | _ => none
  | .cont eintr =>
    match s.pc with
    | .post c k => if c ∈ s.ctxes then s.cont D c k eintr else none
    | _ => none
  | .exit eintr =>
    match s.pc with
    | .user c => if c ∈ s.ctxes then s.swapBack c eintr else none
    | _ => none
  | .sift => s.sift
  | .next => s.next
  | .tick v => if v < 2 ^ 64 then some { s with now := v } else none
  | .pollResume c rc => s.pollResume c rc
  | .pollFast c => s.pollFast c

end St

/-- `s` is reached from the initial state by `es`. -/
def Reaches (D : Diag) (objs : Objs) (now : Nat) (es : List Event) (s : St) : Prop :=
  exec (St.step D) (St.init objs now) es = some s

/-! ## Concrete runs

A packing of error codes and a set of objects to run the machine on, and a way
to read a fact off a run that computes. -/

def Diag.sample : Diag := ⟨fun c n => -(c * 256 + n : Nat) - 1, by intro c n; omega⟩

/-- One unit in every semaphore, every inverted semaphore waiting for one. -/
def Objs.sample : Objs :=
  ⟨fun _ => 1, fun _ => 1, fun _ => 1, fun _ => 0, fun _ => 0, fun _ => false, fun _ => none⟩

/-- The run of `es` from the initial state of the samples. -/
def sampleRun (es : List Event) : Option St := exec (St.step .sample) (St.init .sample 0) es

theorem fact_of_map {α β : Type} {o : Option α} {s : α} (h : o = some s) {f : α → β} {a : β}
    (hf : o.map f = some a) : f s = a := by
  rw [h] at hf
  exact Option.some.inj hf

theorem sampleRun_fact {α : Type} {es : List Event} {s : St} (h : sampleRun es = some s)
    {f : St → α} {a : α} (hf : (sampleRun es).map f = some a) : f s = a :=
  fact_of_map h hf

end Mnthr
