import TcpServer.Model.Server
import TcpServer.Lib.Descriptors
import TcpServer.Lib.Lts

/-!
# Dispatching the workers

`tcp_server_dispatch` and the part of `worker_pool_dispatch_worker` before the
worker's loop, as the process that calls them executes it, with its descriptor
table. An action is one of the calls that can fail, with what it returned.

`fork` returns in two processes and may fail in one; a run follows the process
in which it returned what the action says. Everything but a positive number
leads into the worker routine: `0`, in the child, and `-1`, in the parent.
-/

namespace TcpServer

/-- `STDERR_FILENO`. -/
def stderrFileno : Nat := 2

/-- What a descriptor of the server can refer to. -/
inductive File (n : Nat) where
  /-- A file of the application. -/
  | app (k : Nat)
  | listening
  /-- `sockfd[0]` of worker `i`'s channel. -/
  | parentEnd (i : Fin n)
  /-- `sockfd[1]` of worker `i`'s channel. -/
  | childEnd (i : Fin n)
  deriving DecidableEq, Repr

/-- One call of `tcp_server_dispatch` with its outcome. -/
inductive DispatchCall where
  /-- `socketpair` stores two numbers, or returns `-1` and stores nothing. -/
  | socketpair (ret : Option (Nat × Nat))
  | fork (pid : Int)
  /-- `signal(SIGINT, tcp_server_sig_hndlr)`. -/
  | signal
  deriving DecidableEq, Repr

namespace DispatchCall

/-- It returned `-1`. -/
def Fails : DispatchCall → Prop
  | socketpair ret => ret = none
  | fork pid => pid < 0
  | signal => False

instance : (c : DispatchCall) → Decidable c.Fails
  | socketpair ret => inferInstanceAs (Decidable (ret = none))
  | fork pid => inferInstanceAs (Decidable (pid < 0))
  | signal => isFalse id

end DispatchCall

/-- Where control is. -/
inductive DispatchPc (n : Nat) where
  /-- In the loop of `tcp_server_dispatch`, with these workers still to dispatch. -/
  | looping (is : List (Fin n))
  /-- Between `socketpair` and `fork`. -/
  | forking (i : Fin n) (is : List (Fin n)) (sockfd0 sockfd1 : Nat)
  /-- `tcp_server_dispatch` has returned. -/
  | returned (ret : Int)
  /-- In the worker routine, which only `exit(0)` leaves. -/
  | routine (i : Fin n)
  deriving DecidableEq, Repr

/-- A process that dispatches workers, or has become one. -/
structure Dispatching (n : Nat) where
  self : Server n
  fds : Descriptors (File n)
  pc : DispatchPc n

/-- The worker routine up to its loop: `dup2` over `STDERR_FILENO`, then the closes. -/
def prologue {φ : Type} (sockfd0 sockfd1 listenfd : Nat) (fds : Descriptors φ) : Descriptors φ :=
  (((fds.dup2 sockfd1 stderrFileno).close sockfd0).close sockfd1).close listenfd

namespace Dispatching

variable {n : Nat}

/-- Entering `tcp_server_dispatch`. -/
def start (self : Listener) (fds : Descriptors (File n)) : Dispatching n where
  self := { self with wp := WorkerPool.new n }
  fds := fds
  pc := .looping (List.finRange n)

/-- One step, if the call is one that is made here and the numbers it returns are free. -/
def step (p : Dispatching n) : DispatchCall → Option (Dispatching n)
  | .socketpair ret =>
      match p.pc with
      | .looping (i :: is) =>
          match ret with
          -- `int sockfd[2] = {0, 0}`
          | none => some { p with pc := .forking i is 0 0 }
          | some (a, b) =>
              if a ≠ b ∧ p.fds.get a = none ∧ p.fds.get b = none then
                some { p with
                  fds := (p.fds.install a (.parentEnd i)).install b (.childEnd i)
                  pc := .forking i is a b }
              else none
      | _ => none
  | .fork pid =>
      match p.pc with
      | .forking i is a b =>
          match p.self.wp.dispatchWorker i ⟨a, b, pid⟩ with
          | some wp =>
              some
                { self :=
                    { sockFd := p.self.sockFd
                      masterset := wp.workerFdSet i p.self.masterset
                      maxfdp := max p.self.maxfdp (wp.workerFdGet i)
                      wp := wp }
                  fds := p.fds.close b
                  pc := .looping is }
          | none =>
              if -1 ≤ pid then
                some { p with fds := prologue a b p.self.sockFd p.fds, pc := .routine i }
              else none
      | _ => none
  | .signal =>
      match p.pc with
      | .looping [] => some { p with pc := .returned 0 }
      | _ => none

/-- `tcp_server_dispatch` with any outcome of its calls. -/
def lts (self : Listener) (fds : Descriptors (File n)) : Lts (Dispatching n) DispatchCall where
  init p := p = start self fds
  step := step

/-- The pool with worker `i` entered. -/
def entered (p : Dispatching n) (i : Fin n) (a : Nat) (pid : Int) : WorkerPool n :=
  { p.self.wp with
    worker := Function.update p.self.wp.worker i
      { p.self.wp.worker i with pid := pid, pipefd := a, status := 0 } }

/-! ## Everything a step can do -/

/-- The steps, one constructor for each outcome. -/
inductive Step : Dispatching n → DispatchCall → Dispatching n → Prop
  | paired {p : Dispatching n} {i : Fin n} {is : List (Fin n)} {a b : Nat}
      (hpc : p.pc = .looping (i :: is)) (hab : a ≠ b) (ha : p.fds.get a = none)
      (hb : p.fds.get b = none) :
      Step p (.socketpair (some (a, b)))
        { p with
          fds := (p.fds.install a (.parentEnd i)).install b (.childEnd i)
          pc := .forking i is a b }
  | unpaired {p : Dispatching n} {i : Fin n} {is : List (Fin n)}
      (hpc : p.pc = .looping (i :: is)) :
      Step p (.socketpair none) { p with pc := .forking i is 0 0 }
  | parent {p : Dispatching n} {i : Fin n} {is : List (Fin n)} {a b : Nat} {pid : Int}
      (hpc : p.pc = .forking i is a b) (hpid : 0 < pid) :
      Step p (.fork pid)
        { self :=
            { sockFd := p.self.sockFd
              masterset := insert a p.self.masterset
              maxfdp := max p.self.maxfdp a
              wp := p.entered i a pid }
          fds := p.fds.close b
          pc := .looping is }
  | routine {p : Dispatching n} {i : Fin n} {is : List (Fin n)} {a b : Nat} {pid : Int}
      (hpc : p.pc = .forking i is a b) (hpid : pid = 0 ∨ pid = -1) :
      Step p (.fork pid) { p with fds := prologue a b p.self.sockFd p.fds, pc := .routine i }
  | signal {p : Dispatching n} (hpc : p.pc = .looping []) :
      Step p .signal { p with pc := .returned 0 }

theorem step_cases {p q : Dispatching n} {c : DispatchCall} (h : p.step c = some q) :
    Step p c q := by
  cases c with
  | socketpair ret =>
      rw [step] at h
      split at h
      · rename_i hpc
        cases ret with
        | none => cases h; exact .unpaired hpc
        | some ab =>
            obtain ⟨a, b⟩ := ab
            simp only [Option.ite_none_right_eq_some, Option.some.injEq] at h
            obtain ⟨⟨hab, ha, hb⟩, rfl⟩ := h
            exact .paired hpc hab ha hb
      · exact absurd h (by simp)
  | fork pid =>
      rw [step] at h
      split at h
      · rename_i i is a b hpc
        rw [WorkerPool.dispatchWorker] at h
        by_cases hpid : 0 < pid
        · rw [if_pos hpid] at h
          cases h
          have hfd : ((p.entered i a pid).worker i).pipefd = a := by simp [entered]
          have hstep := Step.parent hpc hpid
          simp only [WorkerPool.workerFdSet, WorkerPool.workerFdGet]
          simp only [entered] at hfd hstep
          rw [hfd]
          exact hstep
        · rw [if_neg hpid] at h
          simp only [Option.ite_none_right_eq_some, Option.some.injEq] at h
          obtain ⟨hneg, rfl⟩ := h
          exact .routine hpc (by omega)
      · exact absurd h (by simp)
  | signal =>
      rw [step] at h
      split at h
      · rename_i hpc; cases h; exact .signal hpc
      · exact absurd h (by simp)

@[simp] theorem entered_pipefd_self (p : Dispatching n) (i : Fin n) (a : Nat) (pid : Int) :
    ((p.entered i a pid).worker i).pipefd = a := by simp [entered]

theorem entered_ne (p : Dispatching n) {i j : Fin n} (a : Nat) (pid : Int) (h : j ≠ i) :
    (p.entered i a pid).worker j = p.self.wp.worker j := by simp [entered, h]

end Dispatching

end TcpServer
