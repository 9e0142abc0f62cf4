import TcpServer.Model.WorkerLoop

/-!
# The composed system

The parent, its `n` workers and the part of the kernel between them: one
`AF_LOCAL` stream channel for each worker, the accept backlog, and for each
process the descriptors that name accepted connections. The kernel accepts a
call only with an outcome it can have: a read takes the oldest byte of its
channel, `select` reports readable descriptors, `sendmsg` looks the descriptor
up in the sender's table and `recvmsg` installs it under a free number.

The processes are their own step functions (`Parent.step`, `WorkerProc.step`);
nothing of the program is stated here a second time. `accepted`, `submitted`,
`parentClosed` and the workers' logs are history: no step reads them.

Two actions are faults and excluded where a result assumes none: a worker that
dies (`die`), and bytes written to a worker's descriptor 2 by something other
than its loop (`stderr`).
-/

namespace TcpServer

/-- An accepted connection, numbered in the order the clients arrived. -/
abbrev Conn := Nat

/-- A process's descriptors that name accepted connections. -/
abbrev FdTable := List (Int × Conn)

namespace FdTable

/-- `close(fd)`. -/
def close (t : FdTable) (fd : Int) : FdTable := t.filter fun e => e.1 ≠ fd

/-- `fd` can be handed out. -/
def Free (t : FdTable) (fd : Int) : Prop := 0 ≤ fd ∧ ∀ e ∈ t, e.1 ≠ fd

instance (t : FdTable) (fd : Int) : Decidable (t.Free fd) := inferInstanceAs (Decidable (_ ∧ _))

/-- There is always a number left. -/
theorem exists_free (t : FdTable) : ∃ fd, t.Free fd := by
  obtain ⟨m, hm⟩ := Infinite.exists_notMem_finset (t.map fun e => e.1.toNat).toFinset
  refine ⟨m, by omega, ?_⟩
  intro e he heq
  refine hm (List.mem_toFinset.mpr (List.mem_map.mpr ⟨e, he, ?_⟩))
  omega

/-- How many descriptors of the table name `c`. -/
def refs (t : FdTable) (c : Conn) : Nat := t.countP fun e => e.2 = c

end FdTable

/-- A message from the parent to a worker: a byte, and the open file passed with it. -/
structure Msg where
  byte : UInt8
  file : Option Conn
  deriving DecidableEq, Repr

/-- What a worker has done with connections so far, in order. -/
structure Log where
  received : List Conn
  started : List Conn
  returned : List Conn
  closed : List Conn
  deriving DecidableEq, Repr

/-- A worker with its descriptors and both directions of its channel. -/
structure Node where
  proc : WorkerProc
  fds : FdTable
  /-- Messages the worker has not received yet. -/
  inbox : List Msg
  /-- Bytes the parent has not read yet. -/
  outbox : List UInt8
  /-- `wait` has returned its process id. -/
  reaped : Bool
  log : Log
  deriving DecidableEq, Repr

namespace Node

/-- A worker just forked. -/
def start (cmd : UInt8) : Node where
  proc := WorkerProc.start cmd
  fds := []
  inbox := []
  outbox := []
  reaped := false
  log := ⟨[], [], [], []⟩

/-- The kernel's part in a worker's call. -/
def kernel (nd : Node) : WorkerCall → Option Node
  | .plumb => some nd
  | .ipcFdRead ret =>
      match nd.inbox, ret with
      | ⟨byte, none⟩ :: ms, .got byte' recvfd =>
          if byte' = byte ∧ recvfd = -1 then some { nd with inbox := ms } else none
      | ⟨byte, some c⟩ :: ms, .got byte' recvfd =>
          if byte' = byte ∧ nd.fds.Free recvfd then
            some { nd with
              inbox := ms
              fds := (recvfd, c) :: nd.fds
              log := { nd.log with received := nd.log.received ++ [c] } }
          else none
      | _, _ => none
  | .callback conn =>
      some { nd with
        log := { nd.log with started := nd.log.started ++ (nd.fds.lookup conn).toList } }
  | .callbackRet =>
      some { nd with
        log := { nd.log with returned := nd.log.returned ++ (nd.fds.lookup nd.proc.conn).toList } }
  | .close fd =>
      some { nd with
        fds := nd.fds.close fd
        log := { nd.log with closed := nd.log.closed ++ (nd.fds.lookup fd).toList } }
  | .write b => some { nd with outbox := nd.outbox ++ [b] }

/-- One step of a worker. -/
def step (nd : Node) (c : WorkerCall) : Option Node :=
  match nd.proc.step c, nd.kernel c with
  | some proc, some nd' => some { nd' with proc := proc }
  | _, _ => none

/-- The kernel closes a dead process's descriptors and drops what it had not received. -/
def die (nd : Node) : Node :=
  { nd with proc := { nd.proc with pc := .dead }, fds := [], inbox := [] }

/-- A message is put on the channel. -/
def push (nd : Node) (m : Msg) : Node := { nd with inbox := nd.inbox ++ [m] }

/-! ## Everything a worker's step can do -/

/-- The steps of a worker, one constructor for each call with its outcome. -/
inductive Step : Node → WorkerCall → Node → Prop
  | plumb {nd : Node} (hpc : nd.proc.pc = .prologue) :
      Step nd .plumb { nd with proc := { nd.proc with pc := .reading } }
  | recv {nd : Node} {byte : UInt8} {ms : List Msg} (hpc : nd.proc.pc = .reading)
      (hin : nd.inbox = ⟨byte, none⟩ :: ms) :
      Step nd (.ipcFdRead (.got byte (-1)))
        { nd with inbox := ms, proc := (⟨.reading, byte, -1⟩ : WorkerProc).dispatchCmd }
  | recvFile {nd : Node} {byte : UInt8} {c : Conn} {fd : Int} {ms : List Msg}
      (hpc : nd.proc.pc = .reading) (hin : nd.inbox = ⟨byte, some c⟩ :: ms) (hfd : nd.fds.Free fd) :
      Step nd (.ipcFdRead (.got byte fd))
        { nd with
          inbox := ms
          fds := (fd, c) :: nd.fds
          log := { nd.log with received := nd.log.received ++ [c] }
          proc := (⟨.reading, byte, fd⟩ : WorkerProc).dispatchCmd }
  | callback {nd : Node} (hpc : nd.proc.pc = .serving) :
      Step nd (.callback nd.proc.conn)
        { nd with
          log := { nd.log with
            started := nd.log.started ++ (nd.fds.lookup nd.proc.conn).toList }
          proc := { nd.proc with pc := .inCallback } }
  | callbackRet {nd : Node} (hpc : nd.proc.pc = .inCallback) :
      Step nd .callbackRet
        { nd with
          log := { nd.log with
            returned := nd.log.returned ++ (nd.fds.lookup nd.proc.conn).toList }
          proc := { nd.proc with pc := .closing } }
  | close {nd : Node} (hpc : nd.proc.pc = .closing) :
      Step nd (.close nd.proc.conn)
        { nd with
          fds := nd.fds.close nd.proc.conn
          log := { nd.log with closed := nd.log.closed ++ (nd.fds.lookup nd.proc.conn).toList }
          proc := { nd.proc with pc := .reporting } }
  | report {nd : Node} (hpc : nd.proc.pc = .reporting) :
      Step nd (.write cmdDone)
        { nd with
          outbox := nd.outbox ++ [cmdDone]
          proc := { nd.proc with pc := .reading } }

theorem step_cases {nd nd' : Node} {c : WorkerCall} (h : nd.step c = some nd') :
    Step nd c nd' := by
  rw [step] at h
  split at h
  case h_2 => exact absurd h (by simp)
  case h_1 p k hp hk =>
    cases h
    cases c with
    | plumb =>
        simp only [WorkerProc.step, Option.ite_none_right_eq_some, Option.some.injEq] at hp
        obtain ⟨hpc, rfl⟩ := hp
        cases hk
        exact .plumb hpc
    | ipcFdRead ret =>
        simp only [WorkerProc.step, Option.ite_none_right_eq_some] at hp
        obtain ⟨hpc, hp⟩ := hp
        simp only [kernel] at hk
        split at hk
        · rename_i byte ms byte' fd hin
          split at hk
          · rename_i hb
            obtain ⟨rfl, rfl⟩ := hb
            cases hp; cases hk
            rw [hpc]
            exact .recv hpc hin
          · exact absurd hk (by simp)
        · rename_i byte c ms byte' fd hin
          split at hk
          · rename_i hb
            obtain ⟨rfl, hfd⟩ := hb
            cases hp; cases hk
            rw [hpc]
            exact .recvFile hpc hin hfd
          · exact absurd hk (by simp)
        · exact absurd hk (by simp)
    | callback conn =>
        simp only [WorkerProc.step, Option.ite_none_right_eq_some, Option.some.injEq] at hp
        obtain ⟨⟨hpc, rfl⟩, rfl⟩ := hp
        cases hk
        exact .callback hpc
    | callbackRet =>
        simp only [WorkerProc.step, Option.ite_none_right_eq_some, Option.some.injEq] at hp
        obtain ⟨hpc, rfl⟩ := hp
        cases hk
        exact .callbackRet hpc
    | close fd =>
        simp only [WorkerProc.step, Option.ite_none_right_eq_some, Option.some.injEq] at hp
        obtain ⟨⟨hpc, rfl⟩, rfl⟩ := hp
        cases hk
        exact .close hpc
    | write b =>
        simp only [WorkerProc.step, Option.ite_none_right_eq_some, Option.some.injEq] at hp
        obtain ⟨⟨hpc, rfl⟩, rfl⟩ := hp
        cases hk
        exact .report hpc

/-! ## When it can do nothing -/

/-- The worker has ended, or waits for a message that is not there. -/
def Stuck (nd : Node) : Prop := nd.proc.gone = true ∨ nd.proc.pc = .reading ∧ nd.inbox = []

instance (nd : Node) : Decidable nd.Stuck := inferInstanceAs (Decidable (_ ∨ _))

theorem Stuck.step_eq_none {nd : Node} (h : nd.Stuck) (c : WorkerCall) : nd.step c = none := by
  cases hs : nd.step c with
  | none => rfl
  | some nd' =>
      exfalso
      rcases h with hgone | ⟨hread, hin⟩
      · cases step_cases hs <;> simp_all [WorkerProc.gone]
      · cases step_cases hs <;> simp_all

/-- Everywhere else it can go on. -/
theorem exists_step {nd : Node} (h : ¬ nd.Stuck) : ∃ c, (nd.step c).isSome = true := by
  unfold Stuck at h
  rw [not_or] at h
  obtain ⟨hgone, hread⟩ := h
  cases hpc : nd.proc.pc with
  | prologue => exact ⟨.plumb, by simp [step, WorkerProc.step, kernel, hpc]⟩
  | serving => exact ⟨.callback nd.proc.conn, by simp [step, WorkerProc.step, kernel, hpc]⟩
  | inCallback => exact ⟨.callbackRet, by simp [step, WorkerProc.step, kernel, hpc]⟩
  | closing => exact ⟨.close nd.proc.conn, by simp [step, WorkerProc.step, kernel, hpc]⟩
  | reporting => exact ⟨.write cmdDone, by simp [step, WorkerProc.step, kernel, hpc]⟩
  | stopped | hungUp | dead => exact absurd (by simp [WorkerProc.gone, hpc]) hgone
  | reading =>
      cases hin : nd.inbox with
      | nil => exact absurd ⟨hpc, hin⟩ hread
      | cons m ms =>
          obtain ⟨byte, file⟩ := m
          cases file with
          | none =>
              exact ⟨.ipcFdRead (.got byte (-1)), by simp [step, WorkerProc.step, kernel, hpc, hin]⟩
          | some c =>
              obtain ⟨fd, hfd⟩ := nd.fds.exists_free
              exact ⟨.ipcFdRead (.got byte fd),
                by simp [step, WorkerProc.step, kernel, hpc, hin, hfd]⟩

end Node

/-- The state of the composed system. -/
structure World (n : Nat) where
  parent : Parent n
  /-- The parent's descriptors for accepted connections. -/
  fds : FdTable
  backlog : List Conn
  /-- How many clients have connected. -/
  arrivals : Nat
  node : Fin n → Node
  accepted : List Conn
  submitted : List (Conn × Fin n)
  parentClosed : List Conn

/-- One action of the composed system. -/
inductive Label (n : Nat) where
  | parent (c : Call n)
  | worker (i : Fin n) (c : WorkerCall)
  /-- A client connects. -/
  | arrive
  /-- Worker `i` dies. -/
  | die (i : Fin n)
  /-- Something other than the worker loop writes to worker `i`'s descriptor 2. -/
  | stderr (i : Fin n) (b : UInt8)
  deriving DecidableEq

/-- The actions of a system without faults. -/
def Label.faultFree {n : Nat} : Label n → Bool
  | .die _ => false
  | .stderr _ _ => false
  | _ => true

/-- The connections that a record of hand-overs gives to worker `i`, in order. -/
def handedTo {n : Nat} (submitted : List (Conn × Fin n)) (i : Fin n) : List Conn :=
  (submitted.filter fun e => e.2 = i).map Prod.fst

namespace World

variable {n : Nat}

/-- The system when `tcp_server_dispatch` returns. -/
def start (c : Numbering n) (cmd : Fin n → UInt8) : World n where
  parent := Parent.start c.server
  fds := []
  backlog := []
  arrivals := 0
  node := fun i => Node.start (cmd i)
  accepted := []
  submitted := []
  parentClosed := []

/-- The parent's view of worker `i`. -/
abbrev worker (w : World n) (i : Fin n) : Worker := w.parent.self.wp.worker i

/-- Replace the state of worker `i`. -/
def setNode (w : World n) (i : Fin n) (nd : Node) : World n :=
  { w with node := Function.update w.node i nd }

/-- A read or an `accept` on `fd` would not block. -/
def Readable (w : World n) (fd : Nat) : Prop :=
  (fd = w.parent.self.sockFd ∧ w.backlog ≠ []) ∨
    ∃ i, fd = (w.worker i).pipefd ∧ ((w.node i).outbox ≠ [] ∨ (w.node i).proc.gone = true)

instance (w : World n) (fd : Nat) : Decidable (w.Readable fd) :=
  inferInstanceAs (Decidable (_ ∨ _))

/-- The connections handed to worker `i` so far. -/
abbrev sentTo (w : World n) (i : Fin n) : List Conn := handedTo w.submitted i

/-- The kernel's part in a call of the parent. -/
def kernel (w : World n) : Call n → Option (World n)
  | .tau => some w
  | .select => some w
  | .sigint => some w
  | .selectRet none => none
  | .selectRet (some ready) => if ∀ fd ∈ ready, w.Readable fd then some w else none
  | .accept conn =>
      match w.backlog with
      | [] => none
      | c :: cs =>
          if w.fds.Free conn ∧ conn.toNat ∉ w.parent.self.masterset then
            some { w with
              backlog := cs
              fds := (conn, c) :: w.fds
              accepted := w.accepted ++ [c] }
          else none
  | .sendmsg i b conn ret =>
      if (w.node i).proc.gone then if ret = .sigpipe then some w else none
      else
        match w.fds.lookup conn with
        | none => none
        | some c =>
            if ret = .ok then
              some { w.setNode i ((w.node i).push ⟨b, some c⟩) with
                submitted := w.submitted ++ [(c, i)] }
            else none
  | .close fd =>
      some { w with
        fds := w.fds.close fd
        parentClosed := w.parentClosed ++ (w.fds.lookup fd).toList }
  | .read i ret =>
      match (w.node i).outbox with
      | b :: bs =>
          if ret = .byte b then some (w.setNode i { w.node i with outbox := bs }) else none
      | [] => if (w.node i).proc.gone ∧ (ret = .eof ∨ ret = .err) then some w else none
  | .write i b ret =>
      if (w.node i).proc.gone then if ret = .sigpipe then some w else none
      else if ret = .ok then some (w.setNode i ((w.node i).push ⟨b, none⟩)) else none
  | .wait (some i) =>
      if (w.node i).proc.gone ∧ (w.node i).reaped = false then
        some (w.setNode i { w.node i with reaped := true })
      else none
  | .wait none => if ∀ i, (w.node i).reaped = true then some w else none

/-- One step of the composed system. -/
def step (w : World n) : Label n → Option (World n)
  | .parent c =>
      match w.parent.step c, w.kernel c with
      | some parent, some w' => some { w' with parent := parent }
      | _, _ => none
  | .worker i c => ((w.node i).step c).map (w.setNode i)
  | .arrive => some { w with backlog := w.backlog ++ [w.arrivals], arrivals := w.arrivals + 1 }
  | .die i =>
      if (w.node i).proc.gone then none else some (w.setNode i (w.node i).die)
  | .stderr i b =>
      if (w.node i).proc.gone then none
      else some (w.setNode i { w.node i with outbox := (w.node i).outbox ++ [b] })

/-- The composed system for one numbering of the descriptors. The workers' uninitialised `cmd`
may hold anything. -/
def lts (c : Numbering n) : Lts (World n) (Label n) where
  init w := ∃ cmd : Fin n → UInt8, w = start c cmd
  step := step

/-- What a `select` that examines every descriptor below `nfds` reports. -/
def reported (w : World n) (rset : Finset Nat) : Finset Nat :=
  rset.filter fun fd => fd < w.parent.self.maxfdp ∧ w.Readable fd

/-- The action is not a fault, not a signal, and if `select` returns it reports exactly the
readable members below `nfds` of the set it was given. -/
def undisturbed (w : World n) : Label n → Bool
  | .parent .sigint => false
  | .parent (.selectRet (some ready)) =>
      match w.parent.pc with
      | .inSelect rset => ready = w.reported rset
      | _ => false
  | l => l.faultFree

/-! ## Everything the kernel can do about a call -/

/-- The kernel's part in the parent's calls, one constructor for each outcome a call can have. -/
inductive Answer (w : World n) : Call n → World n → Prop
  | tau : Answer w .tau w
  | select : Answer w .select w
  | sigint : Answer w .sigint w
  | ready {ready : Finset Nat} (hread : ∀ fd ∈ ready, w.Readable fd) :
      Answer w (.selectRet (some ready)) w
  | accept {conn : Int} {k : Conn} {cs : List Conn} (hback : w.backlog = k :: cs)
      (hfree : w.fds.Free conn) (hnew : conn.toNat ∉ w.parent.self.masterset) :
      Answer w (.accept conn)
        { w with backlog := cs, fds := (conn, k) :: w.fds, accepted := w.accepted ++ [k] }
  | sent {i : Fin n} {b : UInt8} {conn : Int} {k : Conn} (halive : (w.node i).proc.gone = false)
      (hlook : w.fds.lookup conn = some k) :
      Answer w (.sendmsg i b conn .ok)
        { w.setNode i ((w.node i).push ⟨b, some k⟩) with submitted := w.submitted ++ [(k, i)] }
  | notSent {i : Fin n} {b : UInt8} {conn : Int} (hgone : (w.node i).proc.gone = true) :
      Answer w (.sendmsg i b conn .sigpipe) w
  | close {fd : Int} :
      Answer w (.close fd)
        { w with
          fds := w.fds.close fd
          parentClosed := w.parentClosed ++ (w.fds.lookup fd).toList }
  | byte {i : Fin n} {b : UInt8} {bs : List UInt8} (hout : (w.node i).outbox = b :: bs) :
      Answer w (.read i (.byte b)) (w.setNode i { w.node i with outbox := bs })
  | hungUp {i : Fin n} {ret : ReadRet} (hout : (w.node i).outbox = [])
      (hgone : (w.node i).proc.gone = true) (hret : ret = .eof ∨ ret = .err) :
      Answer w (.read i ret) w
  | written {i : Fin n} {b : UInt8} (halive : (w.node i).proc.gone = false) :
      Answer w (.write i b .ok) (w.setNode i ((w.node i).push ⟨b, none⟩))
  | notWritten {i : Fin n} {b : UInt8} (hgone : (w.node i).proc.gone = true) :
      Answer w (.write i b .sigpipe) w
  | reaped {i : Fin n} (hgone : (w.node i).proc.gone = true) (hnot : (w.node i).reaped = false) :
      Answer w (.wait (some i)) (w.setNode i { w.node i with reaped := true })
  | noChildren (hall : ∀ i, (w.node i).reaped = true) : Answer w (.wait none) w

theorem kernel_cases {w k : World n} {c : Call n} (h : w.kernel c = some k) : Answer w c k := by
  cases c with
  | tau => cases h; exact .tau
  | select => cases h; exact .select
  | sigint => cases h; exact .sigint
  | selectRet ready =>
      cases ready with
      | none => cases h
      | some ready =>
          simp only [kernel, Option.ite_none_right_eq_some, Option.some.injEq] at h
          obtain ⟨hread, rfl⟩ := h
          exact .ready hread
  | accept conn =>
      simp only [kernel] at h
      split at h
      · cases h
      · rename_i k₀ cs hback
        simp only [Option.ite_none_right_eq_some, Option.some.injEq] at h
        obtain ⟨⟨hfree, hnew⟩, rfl⟩ := h
        exact .accept hback hfree hnew
  | sendmsg i b conn ret =>
      simp only [kernel] at h
      split at h
      · rename_i hgone
        simp only [Option.ite_none_right_eq_some, Option.some.injEq] at h
        obtain ⟨rfl, rfl⟩ := h
        exact .notSent hgone
      · rename_i halive
        split at h
        · cases h
        · rename_i k₀ hlook
          simp only [Option.ite_none_right_eq_some, Option.some.injEq] at h
          obtain ⟨rfl, rfl⟩ := h
          exact .sent (Bool.eq_false_iff.mpr halive) hlook
  | close fd => cases h; exact .close
  | read i ret =>
      simp only [kernel] at h
      split at h
      · rename_i b bs hout
        simp only [Option.ite_none_right_eq_some, Option.some.injEq] at h
        obtain ⟨rfl, rfl⟩ := h
        exact .byte hout
      · rename_i hout
        simp only [Option.ite_none_right_eq_some, Option.some.injEq] at h
        obtain ⟨⟨hgone, hret⟩, rfl⟩ := h
        exact .hungUp hout hgone hret
  | write i b ret =>
      simp only [kernel] at h
      split at h
      · rename_i hgone
        simp only [Option.ite_none_right_eq_some, Option.some.injEq] at h
        obtain ⟨rfl, rfl⟩ := h
        exact .notWritten hgone
      · rename_i halive
        simp only [Option.ite_none_right_eq_some, Option.some.injEq] at h
        obtain ⟨rfl, rfl⟩ := h
        exact .written (Bool.eq_false_iff.mpr halive)
  | wait child =>
      cases child with
      | none =>
          simp only [kernel, Option.ite_none_right_eq_some, Option.some.injEq] at h
          obtain ⟨hall, rfl⟩ := h
          exact .noChildren hall
      | some i =>
          simp only [kernel, Option.ite_none_right_eq_some, Option.some.injEq] at h
          obtain ⟨⟨hgone, hnot⟩, rfl⟩ := h
          exact .reaped hgone hnot

/-! ## Taking a step apart -/

theorem step_parent {w w' : World n} {c : Call n} (h : w.step (.parent c) = some w') :
    ∃ (p : Parent n) (k : World n),
      Parent.Step w.parent c p ∧ Answer w c k ∧ w' = { k with parent := p } := by
  rw [step] at h
  split at h
  · rename_i p k hp hk
    cases h
    exact ⟨p, k, Parent.step_cases hp, kernel_cases hk, rfl⟩
  · exact absurd h (by simp)

theorem step_worker {w w' : World n} {i : Fin n} {c : WorkerCall}
    (h : w.step (.worker i c) = some w') :
    ∃ nd, (w.node i).step c = some nd ∧ w' = w.setNode i nd := by
  obtain ⟨nd, hnd, rfl⟩ := Option.map_eq_some_iff.mp h
  exact ⟨nd, hnd, rfl⟩

/-- The parent's calls among some actions, in order. -/
def parentCalls (ls : List (Label n)) : List (Call n) :=
  ls.filterMap fun
    | .parent c => some c
    | _ => none

/-- **Seen from the parent, a run of the system is a run of the parent**, so what holds of every run
of the parent, whatever its calls return, holds here. -/
theorem parent_run {c : Numbering n} {ok : World n → Label n → Prop} {w w' : World n}
    {ls : List (Label n)} (h : (lts c).Run ok w ls w') :
    (Parent.lts c.server).Run Lts.Any w.parent (parentCalls ls) w'.parent := by
  induction h with
  | nil w => exact .nil _
  | @cons w u w' l ls _ hs _ ih =>
      cases l with
      | parent call =>
          have hp : w.parent.step call = some u.parent := by
            have hstep : w.step (.parent call) = some u := hs
            rw [step] at hstep
            split at hstep
            · rename_i p k hp hk
              cases hstep
              exact hp
            · cases hstep
          exact .cons trivial hp ih
      | worker i call =>
          obtain ⟨nd, _, rfl⟩ := step_worker hs
          exact ih
      | arrive => cases hs; exact ih
      | die i | stderr i b =>
          have hstep := hs
          simp only [lts, step, Option.ite_none_left_eq_some, Option.some.injEq] at hstep
          obtain ⟨_, rfl⟩ := hstep
          exact ih

@[simp] theorem setNode_node_self (w : World n) (i : Fin n) (nd : Node) :
    (w.setNode i nd).node i = nd := by simp [setNode]

theorem setNode_node_ne (w : World n) {i j : Fin n} (nd : Node) (h : j ≠ i) :
    (w.setNode i nd).node j = w.node j := by simp [setNode, h]

/-- What holds of every worker still does if it holds of the new state of worker `i`. -/
theorem forall_setNode {w : World n} {i : Fin n} {nd : Node} (P : Fin n → Node → Prop)
    (hi : P i nd) (hne : ∀ j, j ≠ i → P j (w.node j)) (j : Fin n) :
    P j ((w.setNode i nd).node j) :=
  (Function.forall_update_iff w.node P).mpr ⟨hi, hne⟩ j

@[simp] theorem setNode_parent (w : World n) (i : Fin n) (nd : Node) :
    (w.setNode i nd).parent = w.parent := rfl

@[simp] theorem setNode_submitted (w : World n) (i : Fin n) (nd : Node) :
    (w.setNode i nd).submitted = w.submitted := rfl

theorem handedTo_snoc_self (sub : List (Conn × Fin n)) (k : Conn) (i : Fin n) :
    handedTo (sub ++ [(k, i)]) i = handedTo sub i ++ [k] := by
  simp [handedTo, List.filter_append]

theorem handedTo_snoc_ne (sub : List (Conn × Fin n)) (k : Conn) {i j : Fin n} (h : j ≠ i) :
    handedTo (sub ++ [(k, i)]) j = handedTo sub j := by
  have hne : i ≠ j := fun he => h he.symm
  simp [handedTo, List.filter_append, hne]

theorem undisturbed_faultFree (w : World n) (l : Label n) (h : w.undisturbed l = true) :
    l.faultFree = true := by
  cases l with
  | parent c => rfl
  | worker i c => rfl
  | arrive => rfl
  | die i => exact h
  | stderr i b => exact h

end World

end TcpServer
