import Mnthr.L2Sched.IoLoops

/-!
# Sockets for a host name

`mnthr_socket`, `mnthr_socket_connect` and `mnthr_socket_bind` go through the
addresses that `getaddrinfo` returns. An address appears with the outcomes of
the system calls for it; what `setsockopt` returns is only printed. The table of
descriptors is that of the process, which nobody else changes meanwhile.
-/
namespace Mnthr

/-- What `connect` says: 0, or -1 with `EINPROGRESS` or another `errno`. -/
inductive Connecting where
  | done | inProgress | failed
  deriving DecidableEq, Repr

/-- A `struct addrinfo`, with the outcomes: `none` and `false` stand for -1.
`wbuflen` is the result of `mnthr_get_wbuflen`, `soError` the option that
`getsockopt` stores. -/
structure Addrinfo where
  socket : Option Nat
  fcntl : Bool
  connect : Connecting
  wbuflen : Int
  soError : Option Int
  bind : Bool
  deriving DecidableEq, Repr

/-- The descriptors that are open, and the arguments of `close` that were not. -/
structure Fds where
  live : List Nat
  stray : List Int
  deriving DecidableEq, Repr

namespace Fds

/-- `socket` returns a descriptor that is not open. -/
def socket (t : Fds) (fd : Nat) : Option Fds :=
  if fd ∈ t.live then none else some { t with live := fd :: t.live }

def close (t : Fds) (fd : Int) : Fds :=
  if 0 ≤ fd ∧ fd.toNat ∈ t.live then { t with live := t.live.erase fd.toNat }
  else { t with stray := fd :: t.stray }

end Fds

/-- mirrors src/mnthr.c:1742-1773 -/
def mnthrConnect (CONNECT : DiagClass) (ai : Addrinfo) : Int :=
  if !ai.fcntl then CONNECT.code 1
  else match ai.connect with
    | .done => 0
    | .failed => -1
    | .inProgress =>
      if ai.wbuflen < 0 then CONNECT.code 2
      else match ai.soError with
        | none => CONNECT.code 3
        | some optval => optval

/-! ## What is done with a socket

The body of a loop behind the call of `socket`: it leaves the descriptors, and
`fd`. -/

/-- mirrors src/mnthr.c:1614-1618 -/
def socketBody (ai : Addrinfo) (t : Fds) (fd : Int) : Fds × Int :=
  if !ai.fcntl then (t.close fd, -1) else (t, fd)

/-- mirrors src/mnthr.c:1659-1670 -/
def connectBody (CONNECT : DiagClass) (ai : Addrinfo) (t : Fds) (fd : Int) : Fds × Int :=
  if mnthrConnect CONNECT ai ≠ 0 then (t.close fd, -1) else (t, fd)

/-- mirrors src/mnthr.c:1709-1728: `bind` is also called for the `fd` of -1 that
a failed `fcntl` leaves, and fails. -/
def bindBody (ai : Addrinfo) (t : Fds) (fd : Int) : Fds × Int :=
  let (t, fd) := socketBody ai t fd
  if fd = -1 ∨ !ai.bind then (t.close fd, -1) else (t, fd)

/-- The loop around `body`: an address that gives no socket is skipped
(`continue`), the first one that does is the last one (`break`). -/
def firstSocket (body : Addrinfo → Fds → Int → Fds × Int) (t : Fds) :
    List Addrinfo → Option (Fds × Int)
  | [] => some (t, -1)
  | ai :: ais =>
    match ai.socket with
    | none => firstSocket body t ais
    | some fd => (t.socket fd).map fun t => body ai t fd

/-! The functions, for what `getaddrinfo` returns; `none` is a `FAIL`. -/

/-- mirrors src/mnthr.c:1592-1630 -/
def mnthrSocket (t : Fds) : Option (List Addrinfo) → Option (Fds × Int)
  | none => none
  | some ais => firstSocket socketBody t ais

/-- mirrors src/mnthr.c:1633-1680 -/
def mnthrSocketConnect (CONNECT : DiagClass) (t : Fds) : Option (List Addrinfo) → Option (Fds × Int)
  | none => some (t, -1)
  | some ais => firstSocket (connectBody CONNECT) t ais

/-- mirrors src/mnthr.c:1683-1738 -/
def mnthrSocketBind (t : Fds) : Option (List Addrinfo) → Option (Fds × Int)
  | none => some (t, -1)
  | some ais => firstSocket bindBody t ais

end Mnthr
