import TcpServer.Model.Lifetime

/-!
# Descriptor sets in memory

Elsewhere in the model a descriptor set is what it stands for, a finite set of
numbers. In memory it is an array of `FD_SETSIZE` bits, one of the fields of
`tcp_server_t`, and the macros that work on it check nothing. Here are the
arguments they are given, call by call, and the words they write.
-/

namespace TcpServer

/-- `FD_SETSIZE`. -/
def fdSetsize : Nat := 1024

/-- A use of one of the macros. -/
inductive FdMacro where
  | set (fd : Nat)
  | clr (fd : Nat)
  | isset (fd : Nat)
  deriving DecidableEq, Repr

/-- The descriptor it is given. -/
def FdMacro.fd : FdMacro → Nat
  | set fd | clr fd | isset fd => fd

/-! ## The object -/

/-- `tcp_server_t` in words of eight bytes: `sock_fd` and `workers_n`, `wp`, the sixteen words of
`masterset`, `maxfdp` and `nready`, `select_tv`. -/
abbrev Object := Nat → BitVec 64

namespace Object

/-- The first word of `masterset`. -/
def masterset : Nat := 2

/-- The word of `maxfdp` and `nready`. -/
def maxfdp : Nat := masterset + fdSetsize / 64

/-- `FD_ZERO(&self->masterset)`. -/
def fdZero (m : Object) : Object := fun k => if masterset ≤ k ∧ k < maxfdp then 0 else m k

/-- `FD_SET(fd, &self->masterset)`. -/
def fdSet (m : Object) (fd : Nat) : Object := fun k =>
  if k = masterset + fd / 64 then m k ||| 1#64 <<< (fd % 64) else m k

/-- What the macros do to the object. `FD_CLR` and `FD_ISSET` are given a copy of `masterset`. -/
def after (m : Object) : List FdMacro → Object
  | [] => m
  | .set fd :: ops => after (m.fdSet fd) ops
  | .clr _ :: ops | .isset _ :: ops => after m ops

end Object

/-! ## Who is given what -/

/-- `worker_pool_worker_fd_set`, after the `fork` that returned in the parent. -/
def Dispatching.fdMacros {n : Nat} (p : Dispatching n) : DispatchCall → List FdMacro
  | .fork pid =>
      match p.pc with
      | .forking i _ a b =>
          match p.self.wp.dispatchWorker i ⟨a, b, pid⟩ with
          | some wp => [.set (wp.workerFdGet i)]
          | none => []
      | _ => []
  | _ => []

/-- `tcp_server_run` and `worker_pool_workers_find_free`. -/
def Parent.fdMacros {n : Nat} (p : Parent n) : Call n → List FdMacro
  | .select =>
      match p.pc with
      | .loopTop => if p.self.wp.workersAvailGet ≤ 0 then [.clr p.self.sockFd] else []
      | _ => []
  | .tau =>
      match p.pc with
      | .selected _ _ => if p.serverStop then [] else [.isset p.self.sockFd]
      | .scanning (i :: _) _ _ => [.isset (p.self.wp.worker i).pipefd]
      | _ => []
  | .read _ _ =>
      match p.pc with
      | .scanning (i :: _) _ _ => [.isset (p.self.wp.worker i).pipefd]
      | _ => []
  | _ => []

/-- What a server with `n` workers has done at some moment: `tcp_server_init` made the calls `c`,
`tcp_server_dispatch` has made the calls `ds` and is where `pc` says, and the macros were used as
`ops` says. A negative number of workers is one without any: `worker_pool_new` aborts. -/
inductive History (n : Nat) (c : InitCalls) :
    List DispatchCall → DispatchPc n → List FdMacro → Prop
  | refused (hret : (tcpServerInit c).ret ≠ 0) :
      History n c [] (.looping (List.finRange n)) []
  | dispatching {fd : Nat} {fds : Descriptors (File n)} {ds : List DispatchCall}
      {d : Dispatching n} (hret : (tcpServerInit c).ret = 0) (hfd : (tcpServerInit c).sockFd = fd)
      (hopen : fds.get fd = some .listening)
      (hdispatch : (Dispatching.lts (Listener.listen fd) fds).Run Lts.Any
        (Dispatching.start (Listener.listen fd) fds) ds d) :
      History n c ds d.pc
        (.set fd :: (Dispatching.lts (Listener.listen fd) fds).outputs Dispatching.fdMacros
          (Dispatching.start (Listener.listen fd) fds) ds)
  | serving {fd : Nat} {fds : Descriptors (File n)} {ds : List DispatchCall} {d : Dispatching n}
      {ls : List (Call n)} {p : Parent n} (hret : (tcpServerInit c).ret = 0)
      (hfd : (tcpServerInit c).sockFd = fd) (hopen : fds.get fd = some .listening)
      (hdispatch : (Dispatching.lts (Listener.listen fd) fds).Run Lts.Any
        (Dispatching.start (Listener.listen fd) fds) ds d)
      (hd : d.pc = .returned 0)
      (hrun : (Parent.lts d.self).Run Lts.Any (Parent.start d.self) ls p) :
      History n c ds d.pc
        (.set fd :: (Dispatching.lts (Listener.listen fd) fds).outputs Dispatching.fdMacros
            (Dispatching.start (Listener.listen fd) fds) ds
          ++ (Parent.lts d.self).outputs Parent.fdMacros (Parent.start d.self) ls)

end TcpServer
