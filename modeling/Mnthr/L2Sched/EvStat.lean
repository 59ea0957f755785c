import Mnthr.Core.LTS
import Mnthr.L1State.Ctx

/-!
# Stat handles of the libev backend

`src/ev_poller.c`: the stat items of the table `events`, `mnthr_stat_new`,
`mnthr_stat_destroy`, `mnthr_stat_wait`, `ev_stat_cb` and `poller_clear_event`.
A handle points to the item of its path; deleting an item from the table frees
it. Items and handles are numbered in the order of their creation, so that what
was freed is not mistaken for what is allocated later.

The scheduler appears as in `Mnthr.L2Sched.EvPoller`: a thread that waits may be
switched to at any time, and by the callback of its watcher. What the I/O waits
do to `pdata.ev`, and others to `co.rc`, are steps of their own. `fasthash`,
`bytes_hash` and `bytes_cmp` of mncommon are parameters; of `hash_get_item` that
it finds an item of the same hash that compares equal, if there is one. I/O
items have another type, which the comparison tells from stat items.
-/
namespace Mnthr

def EV_TYPE_STAT : Int := 2

/-- An `ev_item_t` of type `EV_TYPE_STAT` with its watcher. -/
structure StatItem where
  path : List UInt8
  active : Bool
  data : Option Ptr
  deriving DecidableEq

/-- The functions of mncommon; `bytes_cmp` compares the bytes. -/
structure BytesFns where
  fasthash : UInt64 → Int → UInt64
  bytesHash : List UInt8 → UInt64
  bytesCmp : List UInt8 → List UInt8 → Int
  cmp_eq_zero : ∀ p q, bytesCmp p q = 0 ↔ p = q

/-- Functions to run the backend with. -/
def BytesFns.sample : BytesFns where
  fasthash h k := h * 31 + UInt64.ofInt k
  bytesHash p := p.foldl (fun h c => h * 31 + c.toUInt64) 0
  bytesCmp p q := if p = q then 0 else 1
  cmp_eq_zero p q := by simp

section
variable (B : BytesFns)

/-- mirrors src/ev_poller.c:127-158; the cached value never changes. -/
def statItemHash (path : List UInt8) : UInt64 :=
  B.fasthash (B.fasthash 0 EV_TYPE_STAT) (B.bytesHash path).toNat

/-- mirrors src/ev_poller.c:161-187 -/
def statItemCmp (p q : List UInt8) : Int :=
  let ha := statItemHash B p
  let hb := statItemHash B q
  if ha ≠ hb then (if ha < hb then -1 else 1) else B.bytesCmp p q

/-- What `hash_get_item` looks for. -/
def statMatches (p q : List UInt8) : Bool :=
  statItemHash B p == statItemHash B q && statItemCmp B p q == 0

end

/-- What `pdata.ev` of a thread points to: an I/O item or a stat item. -/
inductive Pdata where
  | null | io
  | stat (a : Nat)
  deriving DecidableEq, Repr

/-- `events`, the items by number, the handles that exist with their `ev`, and of
the threads: `pdata.ev`, the handle they wait on, whether `co.f` is set, `co.rc`.
`ret` is what the last wait returned. -/
structure StatSt where
  item : Nat → StatItem
  table : List Nat
  brk : Nat
  handle : Nat → Option Nat
  nhandles : Nat
  pdata : Ptr → Pdata
  frame : Ptr → Option Nat
  live : Ptr → Bool
  rc : Ptr → Int
  ret : Option (Ptr × Int)

namespace StatSt

def init : StatSt where
  item _ := ⟨[], false, none⟩
  table := []
  brk := 0
  handle _ := none
  nhandles := 0
  pdata _ := .null
  frame _ := none
  live _ := false
  rc _ := 0
  ret := none

def setItem (s : StatSt) (a : Nat) (x : StatItem) : StatSt :=
  { s with item := Function.update s.item a x }

def setHandle (s : StatSt) (h : Nat) (o : Option Nat) : StatSt :=
  { s with handle := Function.update s.handle h o }

def setPdata (s : StatSt) (t : Ptr) (p : Pdata) : StatSt :=
  { s with pdata := Function.update s.pdata t p }

def setFrame (s : StatSt) (t : Ptr) (o : Option Nat) : StatSt :=
  { s with frame := Function.update s.frame t o }

def setRc (s : StatSt) (t : Ptr) (v : Int) : StatSt := { s with rc := Function.update s.rc t v }

/-- `ev_stat_start` and `ev_stat_stop` -/
def statStart (s : StatSt) (a : Nat) : StatSt := s.setItem a { s.item a with active := true }

def statStop (s : StatSt) (a : Nat) : StatSt := s.setItem a { s.item a with active := false }

/-! ## Items and handles -/

section
variable (B : BytesFns)

/-- `hash_get_item` for a key with this path. -/
def getItem (s : StatSt) (path : List UInt8) : Option Nat :=
  s.table.find? fun a => statMatches B (s.item a).path path

/-- mirrors src/ev_poller.c:287-305 -/
def statItemGet (s : StatSt) (path : List UInt8) : Nat × StatSt :=
  match s.getItem B path with
  | some a => (a, s)
  | none =>
    (s.brk, { s.setItem s.brk ⟨path, false, none⟩ with
      table := s.table ++ [s.brk], brk := s.brk + 1 })

/-- mirrors src/ev_poller.c:308-317 -/
def statNew (s : StatSt) (path : List UInt8) : StatSt :=
  let r := s.statItemGet B path
  { r.2.setHandle r.2.nhandles (some r.1) with nhandles := r.2.nhandles + 1 }

/-- What `st->ev` points to; `none` is an access to freed memory. -/
def handleItem (s : StatSt) (h : Nat) : Option Nat :=
  (s.handle h).bind fun a => if a ∈ s.table then some a else none

/-- mirrors src/ev_poller.c:320-332; `none` is also the `FAIL`. -/
def statDestroy (s : StatSt) (h : Nat) : Option StatSt :=
  (s.handleItem h).bind fun a =>
    (s.getItem B (s.item a).path).map fun hit =>
      { s.setHandle h none with table := s.table.erase hit }

/-! ## Waiting -/

/-- mirrors src/ev_poller.c:342-363: up to `yield`, or the return. -/
def waitBegin (D : Diag) (s : StatSt) (t : Ptr) (h : Nat) : Option StatSt :=
  (s.handleItem h).map fun a =>
    let s1 := s.setPdata t (.stat a)
    match (s1.item a).data with
    | none => ((s1.setItem a { s1.item a with data := some t }).statStart a).setFrame t (some h)
    | some u =>
      if u ≠ t then { s1.setRc t D.CO_RC_SIMULTANEOUS with ret := some (t, -1) }
      else (s1.statStart a).setFrame t (some h)

/-- The part of `mnthr_stat_wait` for a `yield` that returns 0; `none` is a `FAIL`
or a failed assertion, too. -/
def waitRelease (s : StatSt) (t : Ptr) (h : Nat) : Option StatSt :=
  (s.handleItem h).bind fun a =>
    (s.getItem B (s.item a).path).bind fun ev =>
      if ev ≠ a ∨ (s.item ev).data ≠ some t then none
      else some ((s.setItem ev { s.item ev with data := none }).setPdata t .null)

/-- mirrors src/ev_poller.c:364-382: from `yield` to the return. -/
def waitEnd (s : StatSt) (t : Ptr) (h : Nat) : Option StatSt :=
  if s.rc t ≠ 0 then some { s.setFrame t none with ret := some (t, -1) }
  else (s.waitRelease B t h).map fun s1 => { s1.setFrame t none with ret := some (t, 0) }

/-- A thread is switched to; one that waits for something else is none of the
backend's concern. -/
def switchTo (s : StatSt) (t : Ptr) : Option StatSt :=
  match s.frame t with
  | none => some s
  | some h => s.waitEnd B t h

end

/-! ## Interrupts and callbacks -/

/-- mirrors src/ev_poller.c:462-487; `none` is an access to freed memory. -/
def clearEvent (s : StatSt) (t : Ptr) : Option StatSt :=
  match s.pdata t with
  | .stat a => if a ∈ s.table then some (s.statStop a) else none
  | _ => some s

/-- mirrors src/mnthr.c:1488-1526, the part that the backend sees. -/
def setInterrupt (D : Diag) (s : StatSt) (t : Ptr) : Option StatSt :=
  if s.live t then (s.clearEvent t).map fun s1 => s1.setRc t D.CO_RC_USER_INTERRUPTED else some s

/-- mirrors src/ev_poller.c:849-889, for a started watcher; `none` is a failed
assertion. -/
def statCb (B : BytesFns) (s : StatSt) (w : Nat) : Option StatSt :=
  match (s.item w).data with
  | none => some (s.statStop w)
  | some c =>
    if s.pdata c ≠ .stat w then none
    else
      let s1 := (s.setPdata c .null).statStop w
      if s.live c then s1.switchTo B c else some s1

end StatSt

inductive StatEvent where
  | new (path : List UInt8)
  | destroy (h : Nat)
  /-- a thread calls `mnthr_stat_wait` -/
  | wait (t : Ptr) (h : Nat)
  /-- a thread that waits is switched to by the sift -/
  | resume (t : Ptr)
  /-- somebody else interrupts the thread -/
  | interrupt (t : Ptr)
  /-- libev runs the callback of a watcher -/
  | event (w : Nat)
  /-- an I/O wait of the thread begins (`true`), or ends -/
  | io (t : Ptr) (waits : Bool)
  /-- `co.rc` is set: by the thread, by a timed wait on it, by a signal -/
  | setRc (t : Ptr) (v : Int)
  /-- a thread is created in the context, or ends -/
  | spawn (t : Ptr)
  | exit (t : Ptr)
  deriving DecidableEq

def statStep (D : Diag) (B : BytesFns) (s : StatSt) : StatEvent → Option StatSt
  | .new path => some (s.statNew B path)
  | .destroy h => s.statDestroy B h
  | .wait t h => if s.live t ∧ s.frame t = none then s.waitBegin D t h else none
  | .resume t => (s.frame t).bind fun h => s.waitEnd B t h
  | .interrupt t => s.setInterrupt D t
  | .event w => if w ∈ s.table ∧ (s.item w).active then s.statCb B w else none
  | .io t waits =>
    if s.live t ∧ s.frame t = none then some (s.setPdata t (if waits then .io else .null)) else none
  | .setRc t v => some (s.setRc t v)
  | .spawn t =>
    if s.live t then none else some { s.setRc t 0 with live := Function.update s.live t true }
  | .exit t =>
    if s.live t ∧ s.frame t = none then
      some { s.setPdata t .null with live := Function.update s.live t false }
    else none

end Mnthr
