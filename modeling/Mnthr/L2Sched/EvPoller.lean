import Mnthr.Core.LTS
import Mnthr.L1State.Ctx

/-!
# The libev backend

`src/ev_poller.c`: the table `events` of I/O items, the five functions that wait
for a descriptor, `ev_io_cb` and `poller_clear_event`. An item holds a libev
watcher; of the watcher the code uses `fd`, `events`, `data` and whether it is
started. A wait function is cut at its `yield`: `waitBegin` is the part before,
`waitEnd` the part after, and its locals in between are a `Frame`.

The scheduler appears as far as the backend can tell: a thread that waits may be
switched to at any time, whoever set it for resume, and a thread may end while it
does not wait. `fasthash` of mncommon is a parameter. Of libev: `ev_io_init` sets
`EV__IOFDSET`, `ev_io_start` clears it, and a callback runs for started watchers
only. Items of `mnthr_stat_wait` have a type of their own, which the comparison
tells from I/O items; they are left out.
-/
namespace Mnthr

/-! libev's `EV_READ`, `EV_WRITE`, `EV__IOFDSET`; src/ev_poller.c:99 -/

def EV_READ : BitVec 32 := 1
def EV_WRITE : BitVec 32 := 2
def EV__IOFDSET : BitVec 32 := 0x80
def EV_TYPE_IO : Int := 1

/-- An `ev_item_t` of type `EV_TYPE_IO` with its watcher. -/
structure EvItem where
  fd : Int
  events : BitVec 32
  active : Bool
  data : Option Ptr
  deriving DecidableEq

section
variable (fasthash : UInt64 → Int → UInt64)

/-- mirrors src/ev_poller.c:127-158; the cached value never changes. -/
def evItemHash (x : EvItem) : UInt64 :=
  fasthash (fasthash (fasthash 0 EV_TYPE_IO) x.fd) (x.events &&& ~~~EV__IOFDSET).toInt

/-- mirrors src/ev_poller.c:161-187 -/
def evItemCmp (a b : EvItem) : Int :=
  let ha := evItemHash fasthash a
  let hb := evItemHash fasthash b
  if ha ≠ hb then (if ha < hb then -1 else 1)
  else if a.fd = b.fd then
    if a.events = b.events then 0
    else if b.events.toInt < a.events.toInt then 1 else -1
  else if b.fd < a.fd then 1 else -1

/-- What `hash_get_item` looks for. -/
def evMatches (a b : EvItem) : Bool :=
  evItemHash fasthash a == evItemHash fasthash b && evItemCmp fasthash a b == 0

end

/-- The functions that wait for a descriptor: `mnthr_get_rbuflen`,
`mnthr_wait_for_read`, `mnthr_get_wbuflen`, `mnthr_wait_for_write`,
`mnthr_wait_for_events`. -/
inductive EvFn where
  | getRbuflen | waitForRead | getWbuflen | waitForWrite | waitForEvents
  deriving DecidableEq, Repr

/-- The event mask (src/ev_poller.c:520, 578, 627, 689, 735). -/
def EvFn.mask : EvFn → BitVec 32
  | .getRbuflen | .waitForRead => EV_READ
  | .getWbuflen | .waitForWrite => EV_WRITE
  | .waitForEvents => EV_READ ||| EV_WRITE

/-- The function asserts that it finds the item again; the others take the one
they find (src/ev_poller.c:650, 717). -/
def EvFn.again : EvFn → Bool
  | .getWbuflen | .waitForWrite => false
  | _ => true

/-- The function returns a count, and -1 for any error (src/ev_poller.c:558-568,
663-680). -/
def EvFn.counts : EvFn → Bool
  | .getRbuflen | .getWbuflen => true
  | _ => false

/-- The locals of a function that waits: `fd` and `ev`. -/
structure Frame where
  fn : EvFn
  fd : Int
  ev : Nat
  deriving DecidableEq, Repr

/-- `events`, the items by address, and of the threads: `pdata.ev`, the wait they
are in, whether `co.f` is set, `co.rc`. `ret` is what the last wait function
returned. -/
structure EvSt where
  item : Nat → EvItem
  table : List Nat
  brk : Nat
  pdata : Ptr → Option Nat
  frame : Ptr → Option Frame
  live : Ptr → Bool
  rc : Ptr → Int
  ret : Option (Ptr × Int)

namespace EvSt

def init : EvSt where
  item _ := ⟨0, 0, false, none⟩
  table := []
  brk := 0
  pdata _ := none
  frame _ := none
  live _ := false
  rc _ := 0
  ret := none

def setItem (s : EvSt) (a : Nat) (x : EvItem) : EvSt :=
  { s with item := Function.update s.item a x }

def setPdata (s : EvSt) (t : Ptr) (o : Option Nat) : EvSt :=
  { s with pdata := Function.update s.pdata t o }

def setFrame (s : EvSt) (t : Ptr) (o : Option Frame) : EvSt :=
  { s with frame := Function.update s.frame t o }

def setRc (s : EvSt) (t : Ptr) (v : Int) : EvSt := { s with rc := Function.update s.rc t v }

/-! ## libev -/

/-- `ev_io_start`: an active watcher is left alone. -/
def ioStart (s : EvSt) (a : Nat) : EvSt :=
  let x := s.item a
  if x.active then s
  else s.setItem a { x with active := true, events := x.events &&& ~~~EV__IOFDSET }

/-- `ev_io_stop` -/
def ioStop (s : EvSt) (a : Nat) : EvSt := s.setItem a { s.item a with active := false }

/-! ## Items -/

/-- mirrors src/ev_poller.c:190-206, with `ev_io_init` -/
def itemNewIo (fd : Int) (event : BitVec 32) : EvItem := ⟨fd, event ||| EV__IOFDSET, false, none⟩

/-- mirrors src/ev_poller.c:267-285 -/
def ioItemGet (fasthash : UInt64 → Int → UInt64) (s : EvSt) (fd : Int) (event : BitVec 32) :
    Nat × EvSt :=
  match s.table.find? fun a => evMatches fasthash (s.item a) ⟨fd, event, false, none⟩ with
  | some a => (a, s)
  | none =>
    (s.brk, { s.setItem s.brk (itemNewIo fd event) with
      table := s.table ++ [s.brk], brk := s.brk + 1 })

/-! ## Waiting -/

/-- The wait is allowed: the watcher is started and the thread yields. -/
def waitStart (s : EvSt) (fn : EvFn) (t : Ptr) (fd : Int) (a : Nat) : EvSt :=
  (s.ioStart a).setFrame t (some ⟨fn, fd, a⟩)

/-- mirrors src/ev_poller.c:520-546, 578-604, 627-653, 689-715, 735-760: up to
`yield`, or the return. -/
def waitBegin (D : Diag) (fasthash : UInt64 → Int → UInt64) (s : EvSt) (fn : EvFn) (t : Ptr)
    (fd : Int) : EvSt :=
  let r := s.ioItemGet fasthash fd fn.mask
  let a := r.1
  let s1 := r.2.setPdata t (some a)
  match (s1.item a).data with
  | none => (s1.setItem a { s1.item a with data := some t }).waitStart fn t fd a
  | some u =>
    if u ≠ t then { s1.setRc t D.CO_RC_SIMULTANEOUS with ret := some (t, -1) }
    else s1.waitStart fn t fd a

/-- What the function returns; `n` is what `ioctl` says. -/
def waitResult (fn : EvFn) (rc n : Int) : Int :=
  if fn.counts then (if rc ≠ 0 then -1 else n) else rc

/-- mirrors src/ev_poller.c:548-571, 606-617, 655-682, 717-726, 762-780: from
`yield` to the return; `none` is a failed assertion. -/
def waitEnd (fasthash : UInt64 → Int → UInt64) (s : EvSt) (t : Ptr) (F : Frame) (n : Int) :
    Option EvSt :=
  let r := s.ioItemGet fasthash F.fd F.fn.mask
  let s1 := r.2
  if F.fn.again ∧ F.ev ≠ r.1 then none
  else
    let ev := if F.fn.again then F.ev else r.1
    if (s1.item ev).data ≠ some t then none
    else some { ((s1.setItem ev { s1.item ev with data := none }).setPdata t none).setFrame t none with
      ret := some (t, waitResult F.fn (s.rc t) n) }

/-! ## Interrupts and callbacks -/

/-- mirrors src/ev_poller.c:462-487 -/
def clearEvent (s : EvSt) (t : Ptr) : EvSt :=
  match s.pdata t with
  | some a => s.ioStop a
  | none => s

/-- mirrors src/mnthr.c:1488-1526, the part that the backend sees. -/
def setInterrupt (D : Diag) (s : EvSt) (t : Ptr) : EvSt :=
  if s.live t then (s.clearEvent t).setRc t D.CO_RC_USER_INTERRUPTED else s

/-- mirrors src/ev_poller.c:786-846, up to `poller_resume`; `none` is a failed
assertion. The watcher is stopped whether or not `co.f` is set. -/
def ioCb (s : EvSt) (w : Nat) : Option EvSt :=
  match (s.item w).data with
  | none => some (s.ioStop w)
  | some c =>
    match s.pdata c with
    | none => none
    | some ev => if ev ≠ w then none else some ((s.setPdata c none).ioStop ev)

end EvSt

inductive EvEvent where
  /-- a thread calls a wait function -/
  | wait (fn : EvFn) (t : Ptr) (fd : Int)
  /-- a thread that waits is switched to -/
  | resume (t : Ptr) (n : Int)
  /-- somebody else interrupts the thread -/
  | interrupt (t : Ptr)
  /-- libev runs the callback of a watcher -/
  | event (w : Nat)
  /-- a thread is created in the context, or ends -/
  | spawn (t : Ptr)
  | exit (t : Ptr)
  deriving DecidableEq, Repr

def evStep (D : Diag) (fasthash : UInt64 → Int → UInt64) (s : EvSt) : EvEvent → Option EvSt
  | .wait fn t fd =>
    if s.live t ∧ s.frame t = none then some (s.waitBegin D fasthash fn t fd) else none
  | .resume t n => (s.frame t).bind fun F => s.waitEnd fasthash t F n
  | .interrupt t => some (s.setInterrupt D t)
  | .event w => if w ∈ s.table ∧ (s.item w).active then s.ioCb w else none
  | .spawn t =>
    if s.live t then none else some { s.setRc t 0 with live := Function.update s.live t true }
  | .exit t =>
    if s.live t ∧ s.frame t = none then
      some { s.setPdata t none with live := Function.update s.live t false }
    else none

end Mnthr
