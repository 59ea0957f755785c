import Mathlib.Algebra.Group.Int.Defs
import Mathlib.Algebra.Group.Nat.Defs
import Mathlib.Data.Int.Order.Basic
import Mnthr.Core.LTS

/-!
# The input and output loops

The loops of `src/mnthr.c` around `write`, `send`, `sendto`, `sendfile`, `read`
and `accept`, and the bytestream writer of `src/bytestream_helper.c`. A loop is
a machine that waits for an answer: of the poller, or of the system call. Any
answer that the call can give is possible; `none` is an answer to another
question, a count above the one requested, or an undefined access.

Allocations that fail end the program (`FAIL`) and do not appear.
-/
namespace Mnthr

inductive Errno where
  | EAGAIN | EWOULDBLOCK
  | other (e : Nat)
  deriving DecidableEq, Repr

/-- What a loop is told. -/
inductive Answer (α : Type) where
  /-- by `mnthr_get_rbuflen`, `mnthr_get_wbuflen` or `mnthr_wait_for_read` -/
  | poll (v : Int)
  /-- -1 from the system call, with its `errno` -/
  | fail (e : Errno)
  | ok (a : α)
  deriving Repr

/-- Where a loop is: the question it has asked, or its return. -/
inductive Phase where
  | poll | call
  | ret (r : Int)
  deriving DecidableEq, Repr

/-- The classes of error codes of src/diag.txt that the loops use. -/
inductive IoClass where
  | ACCEPT_ALL | SENDFILE | SENDTO_ALL | WRITE_ALL
  deriving DecidableEq, Repr

/-- The error codes of the loops, `MNTHR_WRITE_ALL + 1` and so on, from the
generated `diag.h`: only their sign is documented (src/mnthr_private.h:142-144). -/
structure IoDiag where
  base : IoClass → Int
  neg : ∀ c (n : Nat), n ≤ 4 → base c + n < 0

def IoDiag.code (D : IoDiag) (c : IoClass) (n : Nat) : Int := D.base c + n

theorem IoDiag.code_ne_zero (D : IoDiag) (c : IoClass) {n : Nat} (h : n ≤ 4) : D.code c n ≠ 0 :=
  Int.ne_of_lt (D.neg c n h)

/-- Codes to run the loops with. -/
def IoDiag.sample : IoDiag := ⟨fun _ => -8, by intro c n h; omega⟩

/-! ## Writing -/

/-- What tells the write loops apart. -/
structure WriteFn where
  /-- write first, and wait only when the descriptor takes nothing -/
  et : Bool
  /-- `remaining` is a `size_t`, not an `off_t` -/
  unsigned : Bool
  cls : IoClass

/-- mirrors src/mnthr.c:2046-2071 -/
def writeAll : WriteFn := ⟨false, false, .WRITE_ALL⟩

/-- mirrors src/mnthr.c:2074-2101 -/
def writeAllEt : WriteFn := ⟨true, false, .WRITE_ALL⟩

/-- mirrors src/mnthr.c:2104-2128, with the codes of `mnthr_write_all` -/
def sendAll : WriteFn := ⟨false, false, .WRITE_ALL⟩

/-- mirrors src/mnthr.c:2134-2161 -/
def sendtoAll : WriteFn := ⟨false, true, .SENDTO_ALL⟩

namespace WriteFn

/-- A value stored in `remaining`, or converted to its type. -/
def wrap (f : WriteFn) (v : Int) : Int := if f.unsigned then v % 2 ^ 64 else v.bmod (2 ^ 64)

def retries (f : WriteFn) (e : Errno) : Bool := f.et && (e == .EAGAIN || e == .EWOULDBLOCK)

end WriteFn

/-- The locals of a write loop; `sent` are the bytes the calls have taken. -/
structure WriteLoop where
  remaining : Int
  navail : Int
  phase : Phase
  sent : List UInt8
  deriving DecidableEq, Repr

namespace WriteLoop
variable (D : IoDiag) (f : WriteFn) (buf : List UInt8) (len : Nat)

/-- The test `while (remaining > 0)`. -/
def loop (s : WriteLoop) : WriteLoop :=
  { s with phase := if 0 < s.remaining then (if f.et then .call else .poll) else .ret 0 }

/-- The entry, with `size_t len`. -/
def start : WriteLoop := loop f ⟨f.wrap len, (len : Int).bmod (2 ^ 64), .poll, []⟩

/-- The request `(buf + len - remaining, MIN(navail, remaining))`. -/
def offset (s : WriteLoop) : Int := len - s.remaining

def request (s : WriteLoop) : Nat := (min (f.wrap s.navail) s.remaining % 2 ^ 64).toNat

def step (s : WriteLoop) : Answer Nat → Option WriteLoop
  | .poll v =>
    if s.phase ≠ .poll ∨ v.bmod (2 ^ 64) ≠ v then none
    else if v ≤ 0 then some { s with navail := v, phase := .ret (D.code f.cls 1) }
    else if f.et then some (loop f { s with navail := v })
    else some { s with navail := v, phase := .call }
  | .fail e =>
    if s.phase ≠ .call then none
    else if f.retries e then some { s with phase := .poll }
    else some { s with phase := .ret (D.code f.cls 2) }
  | .ok n =>
    if s.phase ≠ .call ∨ s.request f < n then none
    else some (loop f { s with
      remaining := f.wrap (s.remaining - n)
      sent := s.sent ++ (buf.drop (s.offset len).toNat).take n })

end WriteLoop

/-! ## Bytestreams -/

/-- `mnbytestream_t`, as far as the writer reads it: `buf.data`, `pos`, `eod`. -/
structure Bytestream where
  data : List UInt8
  pos : Nat
  eod : Nat
  deriving DecidableEq, Repr

/-- A call of `mnthr_bytestream_write` (`et := false`) or
`mnthr_bytestream_write_et`, with what its write loop is told. -/
structure WriteCall where
  et : Bool
  sz : Nat
  answers : List (Answer Nat)

/-- The function `fn` of the call: with libev, `mnthr_write_all` is defined as
`mnthr_write_all_et` (src/bytestream_helper.c:8-11). -/
def WriteCall.fn (useEv : Bool) (c : WriteCall) : WriteFn :=
  if c.et || useEv then writeAllEt else writeAll

/-- What a call did: `refused` before `fn` is called, `sent` by `fn`. -/
structure Wrote where
  ret : Int
  refused : Bool
  sent : List UInt8
  deriving DecidableEq, Repr

/-- mirrors src/bytestream_helper.c:51-76. The sum in the guard is signed, and
must not overflow; `none` is also a call that has not returned. -/
def Bytestream.write (D : IoDiag) (useEv : Bool) (s : Bytestream) (c : WriteCall) :
    Option (Bytestream × Wrote) :=
  let last := s.pos + (c.sz : Int).bmod (2 ^ 64)
  if 2 ^ 64 ≤ c.sz ∨ 2 ^ 63 ≤ last then none
  else if s.eod < last then some (s, ⟨-1, true, []⟩)
  else
    let f := c.fn useEv
    (exec (WriteLoop.step D f (s.data.drop s.pos) c.sz) (WriteLoop.start f c.sz) c.answers).bind
      fun l => match l.phase with
        | .ret r =>
          some ({ s with pos := if 0 ≤ r then s.pos + r.toNat else s.pos }, ⟨r, false, l.sent⟩)
        | _ => none

/-- Calls on one stream, one after another; beside the stream, what they did. -/
def writes (D : IoDiag) (useEv : Bool) (p : Bytestream × List Wrote) (c : WriteCall) :
    Option (Bytestream × List Wrote) :=
  (p.1.write D useEv c).map fun q => (q.1, p.2 ++ [q.2])

/-! ## `mnthr_sendfile` -/

/-- The locals of `mnthr_sendfile`; `sent` is what the calls have sent, `eof`
that one of them returned 0. -/
structure Sendfile where
  nbytes : Nat
  phase : Phase
  sent : Nat
  eof : Bool
  deriving DecidableEq, Repr

namespace Sendfile
variable (D : IoDiag)

def loop (s : Sendfile) : Sendfile := { s with phase := if 0 < s.nbytes then .call else .ret 0 }

def start (nbytes : Nat) : Sendfile := ⟨nbytes, .poll, 0, false⟩

/-- The statement `nbytes -= nread`, of a `size_t` and a `ssize_t`. -/
def subtract (s : Sendfile) (nread : Int) : Sendfile :=
  { s with nbytes := ((s.nbytes - nread) % 2 ^ 64).toNat }

/-- mirrors src/mnthr.c:2219-2254 without `HAVE_SF_HDTR`: -1 is stored in
`nread` like a count. -/
def step (s : Sendfile) : Answer Nat → Option Sendfile
  | .poll v =>
    if s.phase ≠ .poll then none
    else if v ≤ 0 then some { s with phase := .ret (D.code .SENDFILE 1) }
    else some s.loop
  | .fail _ =>
    if s.phase ≠ .call then none
    else some (s.subtract (-1)).loop
  | .ok n =>
    if s.phase ≠ .call ∨ s.nbytes < n ∨ 2 ^ 63 ≤ n then none
    else if n = 0 then some { s with phase := .ret 0, eof := true }
    else some (loop { s.subtract n with sent := s.sent + n })

end Sendfile

/-! ## Reading -/

/-- The locals of `mnthr_read_allb_et` and the caller's buffer; `consumed` are
the bytes taken from the descriptor. -/
structure ReadLoop where
  buf : List UInt8
  totread : Nat
  nleft : Nat
  phase : Phase
  consumed : List UInt8
  deriving DecidableEq, Repr

/-- The bytes `bs` stored in `buf` from `i` on. -/
def overwrite {α : Type} (buf : List α) (i : Nat) (bs : List α) : List α :=
  buf.take i ++ bs ++ buf.drop (i + bs.length)

namespace ReadLoop
variable (sz : Nat)

/-- The test `while (totread < sz)`. -/
def loop (s : ReadLoop) : ReadLoop :=
  { s with phase := if s.totread < sz then .call else .ret s.totread }

def start (buf : List UInt8) : ReadLoop := loop sz ⟨buf, 0, sz, .poll, []⟩

/-- mirrors src/mnthr.c:1942-1975 -/
def step (s : ReadLoop) : Answer (List UInt8) → Option ReadLoop
  | .poll v =>
    if s.phase ≠ .poll then none
    else if v < 0 then some { s with phase := .ret (-1) }
    else some (s.loop sz)
  | .fail e =>
    if s.phase ≠ .call then none
    else if e = .EAGAIN ∨ e = .EWOULDBLOCK then some { s with phase := .poll }
    else some { s with phase := .ret (-1) }
  | .ok bs =>
    if s.phase ≠ .call ∨ s.nleft < bs.length ∨ s.buf.length < s.totread + bs.length then none
    else
      let s1 := { s with
        buf := overwrite s.buf s.totread bs
        totread := s.totread + bs.length
        consumed := s.consumed ++ bs }
      if bs.length < s.nleft then some { s1 with phase := .ret s1.totread }
      else some (loop sz { s1 with nleft := s.nleft - bs.length })

end ReadLoop

/-! ## Single reads -/

/-- The error codes of one class, such as `MNTHR_READ_ALL + 1` and so on, with
the sign that is documented. -/
structure DiagClass where
  base : Int
  neg : ∀ n : Nat, n ≤ 4 → base + n < 0

def DiagClass.code (C : DiagClass) (n : Nat) : Int := C.base + n

/-- Codes to run the functions of one class with. -/
def DiagClass.sample : DiagClass := ⟨-8, by intro n h; omega⟩

/-- The locals of `mnthr_read_all` and `mnthr_read_allb`, and what their
caller's pointers point to; `request` is the third argument of `read`. -/
structure SingleRead where
  buf : List UInt8
  offset : Nat
  request : Nat
  phase : Phase
  deriving DecidableEq, Repr

/-- `realloc(*buf, n)`, with new memory that holds `junk`. -/
def reallocBytes (junk : UInt8) (buf : List UInt8) (n : Nat) : List UInt8 :=
  buf.take n ++ List.replicate (n - buf.length) junk

namespace SingleRead

def start (buf : List UInt8) (offset : Nat) : SingleRead := ⟨buf, offset, 0, .poll⟩

/-- mirrors src/mnthr.c:1868-1911. The sum `*offset + navail` is signed, and must
not overflow; the second test of `navail`, for 0, is never reached. -/
def step (C : DiagClass) (junk : UInt8) (s : SingleRead) : Answer (List UInt8) → Option SingleRead
  | .poll v =>
    if s.phase ≠ .poll then none
    else if v ≤ 0 then some { s with phase := .ret (C.code 1) }
    else if 2 ^ 63 ≤ s.offset + v then none
    else some { s with
      buf := reallocBytes junk s.buf (s.offset + v.toNat), request := v.toNat, phase := .call }
  | .fail _ => if s.phase ≠ .call then none else some { s with phase := .ret (C.code 3) }
  | .ok bs =>
    if s.phase ≠ .call ∨ s.request < bs.length then none
    else if bs.length < s.request ∧ bs.length = 0 then some { s with phase := .ret (C.code 4) }
    else some { s with
      buf := overwrite s.buf s.offset bs, offset := s.offset + bs.length, phase := .ret 0 }

/-- mirrors src/mnthr.c:1914-1939, for the `sz` bytes of a buffer -/
def stepb (sz : Nat) (s : SingleRead) : Answer (List UInt8) → Option SingleRead
  | .poll v =>
    if s.phase ≠ .poll then none
    else if v ≤ 0 then some { s with phase := .ret (-1) }
    else some { s with request := min v.toNat sz, phase := .call }
  | .fail _ => if s.phase ≠ .call then none else some { s with phase := .ret (-1) }
  | .ok bs =>
    if s.phase ≠ .call ∨ s.request < bs.length ∨ s.buf.length < bs.length then none
    else if bs.length < s.request ∧ bs.length = 0 then some { s with phase := .ret (-1) }
    else some { s with buf := overwrite s.buf 0 bs, phase := .ret bs.length }

end SingleRead

/-! ## Accepting -/

/-- `mnthr_socket_t` (src/mnthr.h:77-86). -/
structure Socket where
  fd : Int
  addr : List UInt8
  addrlen : Nat
  deriving DecidableEq, Repr

/-- `sizeof(union _mnthr_addr)` and `sizeof(mnthr_socket_t)`. -/
def ADDR_SZ : Nat := 28
def SOCKET_SZ : Nat := 36

/-- The first `n` entries of `buf`, beyond its end those of new memory, which
holds `junk`. -/
def entries (junk : Socket) (buf : List Socket) (n : Nat) : List Socket :=
  buf.take n ++ List.replicate (n - buf.length) junk

/-- `realloc(*buf, n * sizeof(mnthr_socket_t))`, whose size is a `size_t`. -/
def reallocSockets (junk : Socket) (buf : List Socket) (n : Nat) : List Socket :=
  entries junk buf (n * SOCKET_SZ % 2 ^ 64 / SOCKET_SZ)

/-- The locals of the accept loops, and what the caller's pointers point to;
`accepted` are the connections that `accept` has returned. -/
structure AcceptLoop where
  buf : List Socket
  offset : Nat
  navail : Nat
  nread : Nat
  phase : Phase
  accepted : List Socket
  deriving DecidableEq, Repr

namespace AcceptLoop
variable (D : IoDiag) (junk : Socket)

def start (buf : List Socket) (offset : Nat) : AcceptLoop := ⟨buf, offset, 0, 0, .poll, []⟩

/-- The next entry is prepared, and `accept` called. -/
def accept (s : AcceptLoop) : Option AcceptLoop :=
  match s.buf[s.offset + s.nread]? with
  | none => none
  | some x => some { s with
      buf := s.buf.set (s.offset + s.nread) { x with addrlen := ADDR_SZ }, phase := .call }

/-- The result of `accept` in the entry, which is counted; `fd` is -1 when it
fails. -/
def store (s : AcceptLoop) (x : Socket) : AcceptLoop :=
  { s with
    buf := s.buf.set (s.offset + s.nread) x
    nread := s.nread + 1
    accepted := s.accepted ++ [x] }

def storeFailed (s : AcceptLoop) : AcceptLoop :=
  { s with buf := s.buf.modify (s.offset + s.nread) fun x => { x with fd := -1 } }

/-- From the end of the loop of `mnthr_accept_all` on. -/
def finish (s : AcceptLoop) : AcceptLoop :=
  if s.nread < s.navail ∧ s.nread = 0 then { s with phase := .ret (D.code .ACCEPT_ALL 4) }
  else { s with offset := s.offset + s.nread, phase := .ret 0 }

/-- The test `while (nread < navail)`. -/
def loop (s : AcceptLoop) : Option AcceptLoop :=
  if s.nread < s.navail then s.accept else some (s.finish D)

/-- mirrors src/mnthr.c:1776-1820. The second test of `navail`, for 0, is never
reached. -/
def step (s : AcceptLoop) : Answer Socket → Option AcceptLoop
  | .poll v =>
    if s.phase ≠ .poll then none
    else if v ≤ 0 then some { s with phase := .ret (D.code .ACCEPT_ALL 1) }
    else loop D { s with
      navail := v.toNat, buf := reallocSockets junk s.buf (s.offset + v.toNat) }
  | .fail _ => if s.phase ≠ .call then none else some (s.storeFailed.finish D)
  | .ok x =>
    if s.phase ≠ .call ∨ x.fd = -1 then none
    else (s.store x).loop D

/-- The head of the loop of `mnthr_accept_all2`, whose `navail` counts what
`nread` counts above. -/
def loop2 (s : AcceptLoop) : Option AcceptLoop :=
  { s with buf := reallocSockets junk s.buf (s.offset + s.nread + 1) }.accept

/-- From the end of that loop on. -/
def finish2 (s : AcceptLoop) : AcceptLoop :=
  if s.nread = 0 then { s with phase := .ret (D.code .ACCEPT_ALL 2) }
  else { s with offset := s.offset + s.nread, phase := .ret 0 }

/-- mirrors src/mnthr.c:1823-1861 -/
def step2 (s : AcceptLoop) : Answer Socket → Option AcceptLoop
  | .poll v =>
    if s.phase ≠ .poll then none
    else if v ≠ 0 then some { s with phase := .ret (D.code .ACCEPT_ALL 1) }
    else s.loop2 junk
  | .fail _ => if s.phase ≠ .call then none else some (s.storeFailed.finish2 D)
  | .ok x =>
    if s.phase ≠ .call ∨ x.fd = -1 then none
    else (s.store x).loop2 junk

end AcceptLoop
end Mnthr
