import TcpServer.Model.FdSets

/-!
# The memory of the server objects

Every call of the interface, made on any of the program's `tcp_server_t *`
variables in any order, reduced to the blocks it allocates, frees and touches. An
object is one block; `tcp_server_dispatch` adds two, the pool and its array.

`none` is a call that does not return: an assertion fails, a null pointer is
followed, or a block is freed or touched that is not allocated. `calloc` gives out
any address that is not in use, one that was freed before for instance. When there
is none left `smalloc` aborts, so the test for `NULL` in `worker_pool_new` is never
taken and is left out.

That a block is allocated says nothing about where in it a call writes. Two arrays
are indexed with numbers from outside, `masterset` with descriptors and `worker`
with what the search for a ready worker ends at: `accesses` lists the entries, which
may lie past the end.
-/

namespace TcpServer

/-- The address of a block. -/
abbrev Addr := Nat

/-- The blocks that are allocated. -/
abbrev Heap := Finset Addr

namespace Heap

/-- `smalloc`, where `calloc` returns `a`. -/
def smalloc (h : Heap) (a : Addr) : Option Heap := if a ∉ h then some (insert a h) else none

/-- `sfree` of a pointer that is not `NULL`. -/
def sfree (h : Heap) (a : Addr) : Option Heap := if a ∈ h then some (h.erase a) else none

/-- The block is read or written. -/
def touch (h : Heap) (a : Addr) : Option Heap := if a ∈ h then some h else none

end Heap

/-- A `worker_pool_t`, with its array `worker` of `workersN` entries. -/
structure PoolBlocks where
  self : Addr
  worker : Addr
  workersN : Nat
  deriving DecidableEq, Repr

/-- A `tcp_server_t`. `calloc` has set `workersN` to `0` and `wp` to `NULL`. -/
structure ServerBlocks where
  self : Addr
  workersN : Nat
  wp : Option PoolBlocks
  deriving DecidableEq, Repr

/-- The blocks of an object, the last one allocated first. -/
def ServerBlocks.blocks (o : ServerBlocks) : List Addr :=
  (o.wp.map fun wp => [wp.worker, wp.self]).getD [] ++ [o.self]

/-- What a variable holds on to. -/
def held (o : Option ServerBlocks) : List Addr := (o.map ServerBlocks.blocks).getD []

namespace Heap

/-- `worker_pool_new`. -/
def workerPoolNew (h : Heap) (self worker : Addr) : Option Heap := do
  let h ← h.smalloc self
  let h ← h.touch self
  h.smalloc worker

/-- `worker_pool_destroy`. -/
def workerPoolDestroy (h : Heap) : Option PoolBlocks → Option Heap
  | none => some h
  | some wp => do
      let h ← h.touch wp.self
      let h ← h.sfree wp.worker
      h.sfree wp.self

/-- `tcp_server_dispatch` on the object `self`. Each fork writes to the array `worker`. -/
def tcpServerDispatch (h : Heap) (self : Addr) (wp : PoolBlocks) : Option Heap := do
  let h ← h.touch self
  let h ← h.workerPoolNew wp.self wp.worker
  let h ← h.touch self
  let h ← h.touch wp.self
  h.touch wp.worker

/-- `tcp_server_run`, which asserts that there is a pool. Which entries of its array are written is
another question: `Memory.accesses`. -/
def tcpServerRun (h : Heap) (o : ServerBlocks) : Option Heap := do
  let h ← h.touch o.self
  let wp ← o.wp
  let h ← h.touch wp.self
  h.touch wp.worker

/-- `tcp_server_destroy`. -/
def tcpServerDestroy (h : Heap) : Option ServerBlocks → Option Heap
  | none => some h
  | some o => do
      let h ← h.touch o.self
      let h ← h.workerPoolDestroy o.wp
      h.sfree o.self

end Heap

/-- A call of the interface on variable `i`, with what the system returns in it, and what comes of
it in the loop. -/
inductive ApiCall (ι : Type) where
  | new (i : ι) (self : Addr)
  /-- `sockFd` is the listening socket, if `tcp_server_init` returns `0`. -/
  | init (i : ι) (workersN : Nat) (sockFd : Option Nat)
  /-- `pipes` are the channels, of one worker after the other. -/
  | dispatch (i : ι) (self worker : Addr) (pipes : List Nat)
  /-- `submits` are the entries of `worker` that the clients accepted are submitted to. -/
  | run (i : ι) (submits : List Nat)
  | destroy (i : ι)
  deriving DecidableEq

/-- The variable it is made on. -/
def ApiCall.var {ι : Type} : ApiCall ι → ι
  | new i _ | init i _ _ | dispatch i _ _ _ | run i _ | destroy i => i

/-- An entry of an array of `size` entries, in a block. -/
structure Access where
  block : Addr
  index : Nat
  size : Nat
  deriving DecidableEq, Repr

/-- It is one of those entries. -/
def Access.Inside (a : Access) : Prop := a.index < a.size

/-- The parent's variables and its heap. -/
structure Memory (ι : Type) where
  heap : Heap
  var : ι → Option ServerBlocks

namespace Memory

variable {ι : Type} [DecidableEq ι]

/-- No object yet. The rest of the program has allocated `base`. -/
def start (base : Heap) : Memory ι where
  heap := base
  var := fun _ => none

/-- Assign to variable `i`. -/
def assign (m : Memory ι) (heap : Heap) (i : ι) (o : Option ServerBlocks) : Memory ι where
  heap := heap
  var := Function.update m.var i o

/-- One call. -/
def step (m : Memory ι) : ApiCall ι → Option (Memory ι)
  | .new i self => (m.heap.smalloc self).map fun h => m.assign h i (some ⟨self, 0, none⟩)
  | .init i workersN sockFd =>
      match m.var i with
      | none => none
      | some o =>
          (m.heap.touch o.self).map fun h =>
            m.assign h i
              (some { o with workersN := if sockFd.isSome then workersN else o.workersN })
  | .dispatch i self worker _ =>
      match m.var i with
      | none => none
      | some o =>
          (m.heap.tcpServerDispatch o.self ⟨self, worker, o.workersN⟩).map fun h =>
            m.assign h i (some { o with wp := some ⟨self, worker, o.workersN⟩ })
  | .run i _ =>
      match m.var i with
      | none => none
      | some o => (m.heap.tcpServerRun o).map fun h => m.assign h i (some o)
  | .destroy i => (m.heap.tcpServerDestroy (m.var i)).map fun h => m.assign h i none

/-- The interface, used by a program that has allocated `base`. -/
def lts (base : Heap) : Lts (Memory ι) (ApiCall ι) where
  init m := m = start base
  step := step

/-- The blocks that no variable names any more once the call has been made. -/
def forgets (m : Memory ι) : ApiCall ι → List Addr
  | .new i _ => held (m.var i)
  | .dispatch i _ _ _ =>
      match m.var i with
      | some ⟨_, _, some wp⟩ => [wp.worker, wp.self]
      | _ => []
  | .init _ _ _ | .run _ _ | .destroy _ => []

/-- The entries a call reads or writes: `FD_SET` on `masterset`, and `worker[i]`. `FD_CLR` and
`FD_ISSET` are given a copy of `masterset` that is not on the heap. -/
def accesses (m : Memory ι) : ApiCall ι → List Access
  | .init i _ sockFd =>
      match m.var i with
      | some o => sockFd.toList.map fun fd => ⟨o.self, fd, fdSetsize⟩
      | none => []
  | .dispatch i _ worker pipes =>
      match m.var i with
      | some o =>
          (List.range o.workersN).map (fun k => ⟨worker, k, o.workersN⟩)
            ++ pipes.map fun fd => ⟨o.self, fd, fdSetsize⟩
      | none => []
  | .run i submits =>
      match m.var i with
      | some ⟨_, _, some wp⟩ =>
          (List.range wp.workersN ++ submits).map fun k => ⟨wp.worker, k, wp.workersN⟩
      | _ => []
  | .new _ _ | .destroy _ => []

end Memory

/-! ## Where clients are submitted to -/

/-- The `i` that the search in `worker_pool_workers_submit_conn` ends at. -/
def WorkerPool.submitIndex {n : Nat} (wp : WorkerPool n) : Nat :=
  match wp.findReady with
  | some i => i
  | none => n

/-- The entries of `worker` that `tcp_server_run` submits clients to. -/
def Parent.submits {n : Nat} (p : Parent n) : Call n → List Nat
  | .tau | .sendmsg _ _ _ _ =>
      match p.pc with
      | .submitting _ _ _ => [p.self.wp.submitIndex]
      | _ => []
  | _ => []

end TcpServer
