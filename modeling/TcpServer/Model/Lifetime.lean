import TcpServer.Model.Run
import TcpServer.Model.Dispatch
import TcpServer.Lib.Ledger

/-!
# The life of a server object

`tcp_server_new`, `tcp_server_init`, `tcp_server_dispatch`, `tcp_server_run` and
`tcp_server_destroy` in the parent process, reduced to the descriptors they open
and close. Dispatching and running are the systems of `TcpServer.Model.Dispatch`
and `TcpServer.Model.Run`; what is new here is the way in, with its four error
exits, and the way out.

`tcp_server_new` allocates with `calloc`, so `sock_fd` is `0` until
`tcp_server_init` gets as far as `socket`.
-/

namespace TcpServer

/-- A descriptor opened or closed. -/
abbrev FdEvent := Ledger.Event Int

/-- How `net_get_ipv4_from_iface` went. Its own `socket` is closed again on every way out. -/
inductive Lookup where
  /-- `socket` returned `-1`. -/
  | noSocket
  /-- There was no address to be had for the interface. -/
  | noAddress (fd : Nat)
  | found (fd : Nat)
  deriving DecidableEq, Repr

/-- The calls `tcp_server_init` makes, with their outcomes: `socket` returns a number or `-1`, the
three that follow it return `0` (`true`) or `-1`. -/
structure InitCalls where
  lookup : Lookup
  socket : Option Nat
  setsockopt : Bool
  bind : Bool
  listen : Bool
  deriving DecidableEq, Repr

/-- What `tcp_server_init` returned, what it left in `sock_fd`, and what it opened and closed. -/
structure Initialised where
  ret : Int
  sockFd : Int
  events : List FdEvent
  deriving DecidableEq, Repr

/-- `net_get_ipv4_from_iface`. -/
def netGetIpv4FromIface : Lookup → Int × List FdEvent
  | .noSocket => (-1, [])
  | .noAddress fd => (-1, [.opened fd, .closed fd])
  | .found fd => (0, [.opened fd, .closed fd])

/-- `tcp_server_init` on a new object. -/
def tcpServerInit (c : InitCalls) : Initialised :=
  let (ret, events) := netGetIpv4FromIface c.lookup
  if ret = -1 then ⟨-1, 0, events⟩
  else
    match c.socket with
    | none => ⟨-1, -1, events⟩
    | some fd =>
        let events := events ++ [.opened fd]
        if c.setsockopt = false then ⟨-1, fd, events ++ [.closed fd]⟩
        else if c.bind = false then ⟨-1, fd, events ++ [.closed fd]⟩
        else if c.listen = false then ⟨-1, fd, events ++ [.closed fd]⟩
        else ⟨0, fd, events⟩

/-- `tcp_server_destroy`: `if (self->sock_fd) close(self->sock_fd)`. `worker_pool_destroy` frees
its memory and closes nothing. -/
def tcpServerDestroy (sockFd : Int) : List FdEvent :=
  if sockFd ≠ 0 then [.closed sockFd] else []

@[simp] theorem tcpServerDestroy_zero : tcpServerDestroy 0 = [] := rfl

theorem tcpServerDestroy_ne {sockFd : Int} (h : sockFd ≠ 0) :
    tcpServerDestroy sockFd = [.closed sockFd] := if_pos h

/-- What the calls of `tcp_server_dispatch` open and close in the parent, which closes `sockfd[1]`
after each `fork`. -/
def dispatchEvents (sockfd1 : Nat) : List DispatchCall → List FdEvent
  | [] => []
  | .socketpair none :: cs => dispatchEvents 0 cs
  | .socketpair (some (a, b)) :: cs => .opened a :: .opened b :: dispatchEvents b cs
  | .fork _ :: cs => .closed sockfd1 :: dispatchEvents sockfd1 cs
  | .signal :: cs => dispatchEvents sockfd1 cs

/-- What a call of `tcp_server_run` opens and closes. A failed `accept` opens nothing. -/
def Call.events {n : Nat} : Call n → List FdEvent
  | .accept conn => if 0 ≤ conn then [.opened conn] else []
  | .close fd => [.closed fd]
  | _ => []

/-- The call of `tcp_server_dispatch` succeeds, and it is the parent it returns in. -/
def DispatchCall.Succeeds : DispatchCall → Prop
  | socketpair ret => ret ≠ none
  | fork pid => 0 < pid
  | signal => True

instance : (c : DispatchCall) → Decidable c.Succeeds
  | .socketpair ret => inferInstanceAs (Decidable (ret ≠ none))
  | .fork pid => inferInstanceAs (Decidable (0 < pid))
  | .signal => isTrue trivial

/-- The lives of a server with `n` workers whose `tcp_server_init` makes the calls `c`, each with
the descriptors it opened and closed. -/
inductive Lifetime (n : Nat) (c : InitCalls) : List FdEvent → Prop
  /-- `tcp_server_init` failed, and the object is destroyed. -/
  | refused (hret : (tcpServerInit c).ret ≠ 0) :
      Lifetime n c ((tcpServerInit c).events ++ tcpServerDestroy (tcpServerInit c).sockFd)
  /-- It succeeded; the workers are dispatched, `tcp_server_run` returns, the object is
  destroyed. -/
  | served {fd : Nat} {fds : Descriptors (File n)} {ds : List DispatchCall} {d : Dispatching n}
      {ls : List (Call n)} {p : Parent n} (hret : (tcpServerInit c).ret = 0)
      (hfd : (tcpServerInit c).sockFd = fd) (hopen : fds.get fd = some .listening)
      (hdispatch : (Dispatching.lts (Listener.listen fd) fds).Run (fun _ c => c.Succeeds)
        (Dispatching.start (Listener.listen fd) fds) ds d)
      (hd : d.pc = .returned 0)
      (hrun : (Parent.lts d.self).Run Lts.Any (Parent.start d.self) ls p) (hp : p.pc = .returned) :
      Lifetime n c ((tcpServerInit c).events ++ dispatchEvents 0 ds ++ ls.flatMap Call.events ++
        tcpServerDestroy p.self.sockFd)

end TcpServer
