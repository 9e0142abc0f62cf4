import TcpServer.Lib.Count
import Mathlib.Data.List.FinRange

/-!
# The worker pool

`worker_pool.c`, as the parent process runs it. `workers_n` is the index `n` of
the type: the array allocated by `worker_pool_new` has exactly `n` entries, so a
position outside it cannot be named, and the one place where the code writes
past the end (`worker_pool_workers_submit_conn` with no ready worker) has no
result here.

The read calls inside `worker_pool_workers_find_free` are answered by a function
from worker indices to outcomes. `TcpServer.Model.Run` takes the same loop apart
at those calls, so that other processes can run in between.
-/

namespace TcpServer

/-- `worker_t`. A status of `0` means ready. -/
structure Worker where
  pid : Int
  pipefd : Nat
  status : Int
  count : Nat
  deriving DecidableEq, Repr

/-- `worker_pool_t`, with `workers_n` as the index of the type. -/
structure WorkerPool (n : Nat) where
  availWorkersN : Int
  worker : Fin n → Worker

/-- What `read(pipefd, &rc, 1)` returned: `0`, `-1`, or one byte. -/
inductive ReadRet where
  | eof
  | err
  | byte (b : UInt8)
  deriving DecidableEq, Repr

/-- What `socketpair` stored and `fork` returned in one `worker_pool_dispatch_worker`.
A failed `socketpair` leaves `{0, 0}` in the array. -/
structure Spawn where
  sockfd0 : Nat
  sockfd1 : Nat
  pid : Int
  deriving DecidableEq, Repr

namespace WorkerPool

variable {n : Nat}

/-- `worker_pool_new`: the array comes from `calloc`. -/
def new (n : Nat) : WorkerPool n where
  availWorkersN := n
  worker := fun _ => { pid := 0, pipefd := 0, status := 0, count := 0 }

/-- The parent's part of `worker_pool_dispatch_worker`; `none` when `fork` did not return a
positive number and control goes on into the worker routine. -/
def dispatchWorker (self : WorkerPool n) (i : Fin n) (s : Spawn) : Option (WorkerPool n) :=
  if 0 < s.pid then
    some { self with
      worker := Function.update self.worker i
        { self.worker i with pid := s.pid, pipefd := s.sockfd0, status := 0 } }
  else none

/-- `worker_pool_worker_fd_set`. -/
def workerFdSet (self : WorkerPool n) (i : Fin n) (fd : Finset Nat) : Finset Nat :=
  insert (self.worker i).pipefd fd

/-- `worker_pool_worker_fd_get`. -/
def workerFdGet (self : WorkerPool n) (i : Fin n) : Nat := (self.worker i).pipefd

/-- `worker_pool_workers_avail_get`. -/
def workersAvailGet (self : WorkerPool n) : Int := self.availWorkersN

/-- The search loop of `worker_pool_workers_submit_conn`; `none` when it ran to `i == workers_n`. -/
def findReady (self : WorkerPool n) : Option (Fin n) :=
  (List.finRange n).find? fun i => (self.worker i).status = 0

/-- `status = 1; count++; avail_workers_n--`. -/
def markBusy (self : WorkerPool n) (i : Fin n) : WorkerPool n where
  availWorkersN := self.availWorkersN - 1
  worker := Function.update self.worker i
    { self.worker i with status := 1, count := (self.worker i).count + 1 }

/-- `status = 0; avail_workers_n++`. -/
def markFree (self : WorkerPool n) (i : Fin n) : WorkerPool n where
  availWorkersN := self.availWorkersN + 1
  worker := Function.update self.worker i { self.worker i with status := 0 }

/-- `worker_pool_workers_submit_conn` up to its `ipc_fd_write`: the pool it leaves and the worker
it writes to. With no ready worker the code only logs and goes on to write `worker[workers_n]`,
past the end of the array: `none`. -/
def workersSubmitConn (self : WorkerPool n) : Option (WorkerPool n × Fin n) :=
  self.findReady.map fun i => (self.markBusy i, i)

/-- The loop of `worker_pool_workers_find_free` over the indices still to visit, with the reads it
makes in order. -/
def findFreeLoop (read : Fin n → ReadRet) (rset : Finset Nat) :
    List (Fin n) → Int → WorkerPool n → WorkerPool n × List (Fin n × ReadRet)
  | [], _, self => (self, [])
  | i :: is, nsel, self =>
      if (self.worker i).pipefd ∈ rset then
        if read i = .eof then
          (self, [(i, .eof)])
        else if nsel - 1 = 0 then
          (self.markFree i, [(i, read i)])
        else
          let (self', log) := findFreeLoop read rset is (nsel - 1) (self.markFree i)
          (self', (i, read i) :: log)
      else
        findFreeLoop read rset is nsel self

/-- `worker_pool_workers_find_free`. -/
def workersFindFree (self : WorkerPool n) (nsel : Int) (rset : Finset Nat)
    (read : Fin n → ReadRet) : WorkerPool n × List (Fin n × ReadRet) :=
  findFreeLoop read rset (List.finRange n) nsel self

/-- The number of workers whose status says ready. -/
def readyCount (self : WorkerPool n) : Nat :=
  (Finset.univ.filter fun i => (self.worker i).status = 0).card

/-! ## What each operation does to a field -/

@[simp] theorem markBusy_avail (self : WorkerPool n) (i : Fin n) :
    (self.markBusy i).availWorkersN = self.availWorkersN - 1 := rfl

@[simp] theorem markFree_avail (self : WorkerPool n) (i : Fin n) :
    (self.markFree i).availWorkersN = self.availWorkersN + 1 := rfl

@[simp] theorem markBusy_pipefd (self : WorkerPool n) (i j : Fin n) :
    ((self.markBusy i).worker j).pipefd = (self.worker j).pipefd := by
  by_cases h : j = i
  · subst h; simp [markBusy]
  · simp [markBusy, h]

@[simp] theorem markFree_pipefd (self : WorkerPool n) (i j : Fin n) :
    ((self.markFree i).worker j).pipefd = (self.worker j).pipefd := by
  by_cases h : j = i
  · subst h; simp [markFree]
  · simp [markFree, h]

@[simp] theorem markBusy_status_self (self : WorkerPool n) (i : Fin n) :
    ((self.markBusy i).worker i).status = 1 := by simp [markBusy]

@[simp] theorem markFree_status_self (self : WorkerPool n) (i : Fin n) :
    ((self.markFree i).worker i).status = 0 := by simp [markFree]

theorem markBusy_ne (self : WorkerPool n) {i j : Fin n} (h : j ≠ i) :
    (self.markBusy i).worker j = self.worker j := by simp [markBusy, h]

theorem markFree_ne (self : WorkerPool n) {i j : Fin n} (h : j ≠ i) :
    (self.markFree i).worker j = self.worker j := by simp [markFree, h]

@[simp] theorem markBusy_count_self (self : WorkerPool n) (i : Fin n) :
    ((self.markBusy i).worker i).count = (self.worker i).count + 1 := by simp [markBusy]

@[simp] theorem markFree_count (self : WorkerPool n) (i j : Fin n) :
    ((self.markFree i).worker j).count = (self.worker j).count := by
  by_cases h : j = i
  · subst h; simp [markFree]
  · simp [markFree, h]

/-! ## The search for a ready worker -/

theorem findReady_some {self : WorkerPool n} {i : Fin n} (h : self.findReady = some i) :
    (self.worker i).status = 0 := by
  simpa using List.find?_some h

theorem findReady_none {self : WorkerPool n} :
    self.findReady = none ↔ ∀ i, (self.worker i).status ≠ 0 := by
  simp [findReady, List.find?_eq_none]

/-! ## The number of ready workers -/

theorem readyCount_le (self : WorkerPool n) : self.readyCount ≤ n := by
  have h := Finset.card_filter_le Finset.univ fun i => (self.worker i).status = 0
  simpa [readyCount] using h

theorem readyCount_markBusy {self : WorkerPool n} {i : Fin n} (h : (self.worker i).status = 0) :
    (self.markBusy i).readyCount + 1 = self.readyCount := by
  have hcount := PointUpdate.card_filter_update (fun x : Worker => x.status = 0) self.worker i
    { self.worker i with status := 1, count := (self.worker i).count + 1 }
  rw [if_pos h, if_neg (by simp)] at hcount
  exact hcount

theorem readyCount_markFree (self : WorkerPool n) (i : Fin n) :
    (self.markFree i).readyCount
      = self.readyCount + if (self.worker i).status = 0 then 0 else 1 := by
  have hcount := PointUpdate.card_filter_update (fun x : Worker => x.status = 0) self.worker i
    { self.worker i with status := 0 }
  rw [if_pos rfl] at hcount
  have hcount : (self.markFree i).readyCount + (if (self.worker i).status = 0 then 1 else 0)
      = self.readyCount + 1 := hcount
  split <;> rename_i hs
  · rw [if_pos hs] at hcount; omega
  · rw [if_neg hs] at hcount; omega

/-- Some worker is ready as long as the number of ready ones is positive. -/
theorem findReady_isSome {self : WorkerPool n} (h : 0 < self.readyCount) :
    ∃ i, self.findReady = some i := by
  cases hf : self.findReady with
  | some i => exact ⟨i, rfl⟩
  | none =>
      obtain ⟨i, hi⟩ := Finset.card_pos.mp h
      exact absurd (Finset.mem_filter.mp hi).2 (findReady_none.mp hf i)

end WorkerPool

end TcpServer
