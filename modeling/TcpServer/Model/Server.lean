import TcpServer.Model.WorkerPool
import Mathlib.Data.Finset.Lattice.Fold

/-!
# The server object and the dispatch of its workers

`tcp_server_t` and the part of `tcp_server_core.c` that fills it in before the
server loop runs: the end of `tcp_server_init`, which starts the descriptor set
with the listening socket, and `tcp_server_dispatch`, which forks the workers
and adds their channels to it.

`nready` and `select_tv` are left out: `select` is passed `NULL` for its timeout
and nothing reads either field.
-/

namespace TcpServer

/-- `tcp_server_t` between `tcp_server_init` and `tcp_server_dispatch`, while `wp` is `NULL`. -/
structure Listener where
  sockFd : Nat
  masterset : Finset Nat
  maxfdp : Nat

/-- What a successful `tcp_server_init` leaves for the listening descriptor `sockFd`. -/
def Listener.listen (sockFd : Nat) : Listener where
  sockFd := sockFd
  masterset := {sockFd}
  maxfdp := sockFd + 1

/-- `tcp_server_t` with its worker pool. -/
structure Server (n : Nat) extends Listener where
  wp : WorkerPool n

namespace Server

variable {n : Nat}

/-- The loop of `tcp_server_dispatch` over the workers still to fork; `none` when the caller
fell into the worker routine. -/
def dispatchLoop (sp : Fin n → Spawn) : List (Fin n) → Server n → Option (Server n)
  | [], self => some self
  | i :: is, self =>
      match self.wp.dispatchWorker i (sp i) with
      | none => none
      | some wp =>
          dispatchLoop sp is
            { sockFd := self.sockFd
              masterset := wp.workerFdSet i self.masterset
              maxfdp := max self.maxfdp (wp.workerFdGet i)
              wp := wp }

/-- `tcp_server_dispatch`. The signal handler is registered at its end, see
`TcpServer.Model.Run`. -/
def dispatch (self : Listener) (sp : Fin n → Spawn) : Option (Server n) :=
  dispatchLoop sp (List.finRange n) { self with wp := WorkerPool.new n }

/-- The set the server loop passes to `select`: `masterset`, without the listening socket when
no worker is available. -/
def selectSet (self : Server n) : Finset Nat :=
  if self.wp.workersAvailGet ≤ 0 then self.masterset.erase self.sockFd else self.masterset

/-- With the listening socket in the set given to `select`, the counter is positive. -/
theorem avail_pos_of_mem_selectSet {s : Server n} (h : s.sockFd ∈ s.selectSet) :
    0 < s.wp.availWorkersN := by
  unfold selectSet at h
  split at h
  · exact absurd h (Finset.notMem_erase _ _)
  · rename_i hpos
    exact Int.not_le.mp hpos

/-! ## What dispatching leaves behind -/

/-- The effect of dispatching the workers `is` on a server object. -/
structure Dispatched (sp : Fin n → Spawn) (is : List (Fin n)) (s s' : Server n) :
    Prop where
  sockFd : s'.sockFd = s.sockFd
  /-- Exactly the parent's ends of the new channels were added. -/
  masterset : ∀ fd, fd ∈ s'.masterset ↔ fd ∈ s.masterset ∨ ∃ i ∈ is, fd = (sp i).sockfd0
  maxfdp : s'.maxfdp = (is.map fun i => (sp i).sockfd0).foldl max s.maxfdp
  avail : s'.wp.availWorkersN = s.wp.availWorkersN
  worker : ∀ i ∈ is, s'.wp.worker i
    = { pid := (sp i).pid, pipefd := (sp i).sockfd0, status := 0, count := (s.wp.worker i).count }
  frame : ∀ i, i ∉ is → s'.wp.worker i = s.wp.worker i

theorem dispatchLoop_spec {sp : Fin n → Spawn} (hpid : ∀ i, 0 < (sp i).pid) :
    ∀ (is : List (Fin n)) (self : Server n), is.Nodup →
      ∃ self', dispatchLoop sp is self = some self' ∧ Dispatched sp is self self' := by
  intro is
  induction is with
  | nil =>
      intro self _
      exact ⟨self, rfl, rfl, by simp, rfl, rfl, by simp, by simp⟩
  | cons i is ih =>
      intro self hnd
      obtain ⟨hi, hnd⟩ := List.nodup_cons.mp hnd
      rw [dispatchLoop, WorkerPool.dispatchWorker, if_pos (hpid i)]
      obtain ⟨self', heq, hd⟩ := ih _ hnd
      refine ⟨self', heq, ?_⟩
      exact
        { sockFd := hd.sockFd
          masterset := by
            intro fd
            rw [hd.masterset fd]
            simp only [WorkerPool.workerFdSet, Function.update_self, Finset.mem_insert,
              List.mem_cons, exists_eq_or_imp]
            grind
          maxfdp := by rw [hd.maxfdp]; simp [WorkerPool.workerFdGet]
          avail := hd.avail
          worker := by
            intro j hj
            rcases List.mem_cons.mp hj with rfl | hj
            · rw [hd.frame j hi]; simp
            · have hne : j ≠ i := fun h => hi (h ▸ hj)
              rw [hd.worker j hj]; simp [hne]
          frame := by
            intro j hj
            rw [List.mem_cons, not_or] at hj
            rw [hd.frame j hj.2]; simp [hj.1] }

end Server

/-- The worker of a pool of one. -/
def solo : Fin 1 := 0

/-- The first worker of a pool of two. -/
def firstWorker : Fin 2 := ⟨0, by decide⟩

/-- The other. -/
def secondWorker : Fin 2 := ⟨1, by decide⟩

/-- The workers of a pool of three, in the order of the array. -/
def frontWorker : Fin 3 := ⟨0, by decide⟩

def middleWorker : Fin 3 := ⟨1, by decide⟩

def backWorker : Fin 3 := ⟨2, by decide⟩

/-- What the operating system hands out to a server whose start-up goes through: the number of
the listening socket and, worker by worker, the results of `socketpair` and `fork`. -/
structure Numbering (n : Nat) where
  sockFd : Nat
  spawn : Fin n → Spawn
  /-- Every `fork` returns in the parent with the child's process id. -/
  pid_pos : ∀ i, 0 < (spawn i).pid
  /-- The parent's ends of the channels have different numbers. -/
  pipe_inj : ∀ i j, (spawn i).sockfd0 = (spawn j).sockfd0 → i = j
  /-- None of them is the listening socket's. -/
  pipe_ne : ∀ i, (spawn i).sockfd0 ≠ sockFd

namespace Numbering

variable {n : Nat}

/-- The parent's end of worker `i`'s channel. -/
def pipe (c : Numbering n) (i : Fin n) : Nat := (c.spawn i).sockfd0

/-- Consecutive numbers for the channels, as a descriptor table without gaps gives them: each
`socketpair` finds the number its predecessor's second end left free again. -/
def consecutive (n sockFd first : Nat) (h : sockFd < first ∨ first + n ≤ sockFd) : Numbering n where
  sockFd := sockFd
  spawn := fun i => { sockfd0 := first + i, sockfd1 := first + i + 1, pid := 1 + i }
  pid_pos := by intro i; show 0 < 1 + ((i : Nat) : Int); omega
  pipe_inj := by intro i j hij; exact Fin.ext (Nat.add_left_cancel hij)
  pipe_ne := by intro i; show first + (i : Nat) ≠ sockFd; omega

/-- One worker, its channel numbered after the listening socket. -/
def oneWorker : Numbering 1 := consecutive 1 3 4 (.inl (by decide))

/-- Two workers, their channels numbered after the listening socket. -/
def twoWorkers : Numbering 2 := consecutive 2 3 4 (.inl (by decide))

/-- Three workers, their channels numbered after the listening socket. -/
def threeWorkers : Numbering 3 := consecutive 3 3 4 (.inl (by decide))

theorem dispatch_isSome (c : Numbering n) :
    (Server.dispatch (Listener.listen c.sockFd) c.spawn).isSome = true := by
  obtain ⟨self', heq, _⟩ := Server.dispatchLoop_spec c.pid_pos (List.finRange n)
    { Listener.listen c.sockFd with wp := WorkerPool.new n } (List.nodup_finRange n)
  rw [Server.dispatch, heq]; rfl

/-- The server object after `tcp_server_init` and `tcp_server_dispatch`. -/
def server (c : Numbering n) : Server n :=
  (Server.dispatch (Listener.listen c.sockFd) c.spawn).get c.dispatch_isSome

theorem server_dispatched (c : Numbering n) :
    Server.Dispatched c.spawn (List.finRange n)
      { Listener.listen c.sockFd with wp := WorkerPool.new n } c.server := by
  obtain ⟨self', heq, hd⟩ := Server.dispatchLoop_spec c.pid_pos (List.finRange n)
    { Listener.listen c.sockFd with wp := WorkerPool.new n } (List.nodup_finRange n)
  have : c.server = self' := by
    rw [server]; exact Option.get_of_eq_some _ heq
  rw [this]; exact hd

@[simp] theorem server_sockFd (c : Numbering n) : c.server.sockFd = c.sockFd :=
  c.server_dispatched.sockFd

theorem mem_masterset (c : Numbering n) (fd : Nat) :
    fd ∈ c.server.masterset ↔ fd = c.sockFd ∨ ∃ i, fd = c.pipe i := by
  rw [c.server_dispatched.masterset]
  simp [Listener.listen, pipe]

@[simp] theorem server_worker (c : Numbering n) (i : Fin n) :
    c.server.wp.worker i
      = { pid := (c.spawn i).pid, pipefd := c.pipe i, status := 0, count := 0 } :=
  c.server_dispatched.worker i (List.mem_finRange i)

@[simp] theorem server_avail (c : Numbering n) : c.server.wp.availWorkersN = n :=
  c.server_dispatched.avail

/-- All workers start out ready. -/
@[simp] theorem server_readyCount (c : Numbering n) : c.server.wp.readyCount = n := by
  simp [WorkerPool.readyCount]

/-- `tcp_server_dispatch` folds the descriptors themselves, not one past them, into the bound. -/
theorem server_maxfdp (c : Numbering n) :
    c.server.maxfdp = ((List.finRange n).map c.pipe).foldl max (c.sockFd + 1) :=
  c.server_dispatched.maxfdp

theorem lt_foldl_max {x a : Nat} {l : List Nat} : x < l.foldl max a ↔ x < a ∨ ∃ y ∈ l, x < y := by
  induction l generalizing a with
  | nil => simp
  | cons y ys ih =>
      rw [List.foldl_cons, ih, lt_max_iff, or_assoc]
      simp

/-- The descriptors `select` examines. -/
theorem lt_maxfdp (c : Numbering n) (fd : Nat) :
    fd < c.server.maxfdp ↔ fd ≤ c.sockFd ∨ ∃ i, fd < c.pipe i := by
  rw [server_maxfdp, lt_foldl_max, Nat.lt_succ_iff]
  simp

end Numbering

end TcpServer
