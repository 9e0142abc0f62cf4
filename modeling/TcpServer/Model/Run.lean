import TcpServer.Model.Server
import TcpServer.Lib.Lts

/-!
# The server loop

`tcp_server_run` with everything it calls, as the parent process executes it
from the end of `tcp_server_dispatch` on, taken apart at its system calls. A
state is the server object, the flag `SERVER_STOP` and the place control has
reached; an action is one system call together with what it returned, and `tau`
is the code between two calls. What the calls return is not restricted here
beyond what `select` promises, to report members of the set it was given and to
examine none from `maxfdp` on: `TcpServer.Model.World` does that.

The statements between two calls touch nothing another process can see, so they
are taken together with a call next to them: `submit_conn` marks the worker busy
in the step that sends, `find_free` marks it ready in the step that reads.

`SIGINT` can arrive anywhere. Its handler sets the flag; while the parent waits
in `select`, the call also returns `-1` (`EINTR`) with the set as it was passed.
-/

namespace TcpServer

/-- What a write to a worker's channel did. `sigpipe` is the signal that ends the process. -/
inductive SendRet where
  | ok
  | err
  | sigpipe
  deriving DecidableEq, Repr

/-- The byte `worker_pool_workers_submit_conn` sends along with a connection: `'p'`. -/
def cmdConn : UInt8 := 112

/-- The byte `worker_pool_workers_terminate` sends: `'s'`. -/
def cmdStop : UInt8 := 115

/-- The byte a worker sends when it is done: `'d'`. -/
def cmdDone : UInt8 := 100

/-- One system call of the parent with its outcome. -/
inductive Call (n : Nat) where
  /-- Code up to the next system call. -/
  | tau
  /-- `select` is called. -/
  | select
  /-- `select` returns the ready descriptors and their number, or `-1`. -/
  | selectRet (ready : Option (Finset Nat))
  | accept (conn : Int)
  /-- `sendmsg` inside `ipc_fd_write` to worker `i`. -/
  | sendmsg (i : Fin n) (b : UInt8) (conn : Int) (ret : SendRet)
  | close (fd : Int)
  | read (i : Fin n) (ret : ReadRet)
  | write (i : Fin n) (b : UInt8) (ret : SendRet)
  /-- `wait` returns a child's process id, or `-1`. -/
  | wait (child : Option (Fin n))
  /-- `SIGINT` arrives and `tcp_server_sig_hndlr` runs. -/
  | sigint
  deriving DecidableEq

/-- Where the parent's control is. -/
inductive Pc (n : Nat) where
  /-- `tcp_server_dispatch` has registered the handler, `tcp_server_run` not begun. -/
  | dispatched
  /-- At the top of the loop. -/
  | loopTop
  /-- Waiting in `select` on `rset`. -/
  | inSelect (rset : Finset Nat)
  /-- `select` has returned, `SERVER_STOP` not been tested yet. -/
  | selected (nsel : Int) (rset : Finset Nat)
  /-- About to `accept`. -/
  | accepting (nsel : Int) (rset : Finset Nat)
  /-- In `worker_pool_workers_submit_conn`. -/
  | submitting (conn : Int) (nsel : Int) (rset : Finset Nat)
  /-- About to `close(conn)`. -/
  | closing (conn : Int) (nsel : Int) (rset : Finset Nat)
  /-- In `worker_pool_workers_find_free`, with these workers still to visit. -/
  | scanning (is : List (Fin n)) (nsel : Int) (rset : Finset Nat)
  /-- In the first loop of `worker_pool_workers_terminate`, with these workers still to stop. -/
  | terminating (is : List (Fin n))
  /-- In its `wait` loop. -/
  | waiting
  /-- `tcp_server_run` has returned. -/
  | returned
  /-- `worker[workers_n]` has been written. -/
  | overrun
  /-- Ended by `SIGPIPE`. -/
  | killed
  deriving DecidableEq

/-- The parent process. -/
structure Parent (n : Nat) where
  self : Server n
  pc : Pc n
  /-- The global `SERVER_STOP`. -/
  serverStop : Bool

namespace Parent

variable {n : Nat}

/-- The parent when `tcp_server_dispatch` returns; `SERVER_STOP` has its initial value. -/
def start (self : Server n) : Parent n where
  self := self
  pc := .dispatched
  serverStop := true

/-- The pool, replaced. -/
def setPool (p : Parent n) (wp : WorkerPool n) : Parent n :=
  { p with self := { p.self with wp := wp } }

/-- Control after the test of `SERVER_STOP`. -/
def afterTest (p : Parent n) (nsel : Int) (rset : Finset Nat) : Pc n :=
  if p.serverStop then .terminating (List.finRange n)
  else if p.self.sockFd ∈ rset then .accepting nsel rset
  else .scanning (List.finRange n) nsel rset

/-- Control after `close(conn)`: `if (--nsel == 0) continue`. -/
def afterClose (nsel : Int) (rset : Finset Nat) : Pc n :=
  if nsel - 1 = 0 then .loopTop else .scanning (List.finRange n) (nsel - 1) rset

/-- Control after `find_free` has marked a worker: `if (--nsel == 0) break`. -/
def afterRead (is : List (Fin n)) (nsel : Int) (rset : Finset Nat) : Pc n :=
  if nsel - 1 = 0 then .loopTop else .scanning is (nsel - 1) rset

/-- Control after the handler: `select` gives up with `EINTR`, everything else goes on. -/
def afterSignal : Pc n → Pc n
  | .inSelect rset => .selected (-1) rset
  | pc => pc

/-- One step of the parent, if the call is one it makes here. -/
def step (p : Parent n) : Call n → Option (Parent n)
  | .tau =>
      match p.pc with
      | .dispatched => some { p with serverStop := false, pc := .loopTop }
      | .selected nsel rset => some { p with pc := p.afterTest nsel rset }
      | .submitting _ _ _ =>
          if p.self.wp.workersSubmitConn.isNone then some { p with pc := .overrun } else none
      | .scanning [] _ _ => some { p with pc := .loopTop }
      | .scanning (i :: is) nsel rset =>
          if (p.self.wp.worker i).pipefd ∈ rset then none
          else some { p with pc := .scanning is nsel rset }
      | .terminating [] => some { p with pc := .waiting }
      | _ => none
  | .select =>
      match p.pc with
      | .loopTop => some { p with pc := .inSelect p.self.selectSet }
      | _ => none
  | .selectRet (some ready) =>
      match p.pc with
      | .inSelect rset =>
          if ready ⊆ rset ∧ ready.Nonempty ∧ ∀ fd ∈ ready, fd < p.self.maxfdp then
            some { p with pc := .selected ready.card ready }
          else none
      | _ => none
  | .selectRet none =>
      match p.pc with
      | .inSelect rset => some { p with pc := .selected (-1) rset }
      | _ => none
  | .accept conn =>
      match p.pc with
      | .accepting nsel rset => some { p with pc := .submitting conn nsel rset }
      | _ => none
  | .sendmsg i b conn ret =>
      match p.pc with
      | .submitting conn' nsel rset =>
          match p.self.wp.workersSubmitConn with
          | some (wp, j) =>
              if i = j ∧ b = cmdConn ∧ conn = conn' then
                some { p.setPool wp with
                  pc := if ret = .sigpipe then .killed else .closing conn nsel rset }
              else none
          | none => none
      | _ => none
  | .close fd =>
      match p.pc with
      | .closing conn nsel rset =>
          if fd = conn then some { p with pc := afterClose nsel rset } else none
      | _ => none
  | .read i ret =>
      match p.pc with
      | .scanning (j :: is) nsel rset =>
          if i = j ∧ (p.self.wp.worker j).pipefd ∈ rset then
            if ret = .eof then some { p with pc := .loopTop }
            else some { p.setPool (p.self.wp.markFree j) with pc := afterRead is nsel rset }
          else none
      | _ => none
  | .write i b ret =>
      match p.pc with
      | .terminating (j :: is) =>
          if i = j ∧ b = cmdStop then
            some { p with pc := if ret = .sigpipe then .killed else .terminating is }
          else none
      | _ => none
  | .wait child =>
      match p.pc with
      | .waiting => some { p with pc := if child.isSome then .waiting else .returned }
      | _ => none
  | .sigint => some { p with serverStop := true, pc := afterSignal p.pc }

/-- The parent on its own, with any outcome of its calls, after dispatching with `self`. -/
def lts (self : Server n) : Lts (Parent n) (Call n) where
  init p := p = start self
  step := step

/-! ## Everything a step can do -/

/-- The steps, one constructor for each statement that can be next. -/
inductive Step : Parent n → Call n → Parent n → Prop
  | enter {p : Parent n} (hpc : p.pc = .dispatched) :
      Step p .tau { p with serverStop := false, pc := .loopTop }
  | test {p : Parent n} {nsel : Int} {rset : Finset Nat} (hpc : p.pc = .selected nsel rset) :
      Step p .tau { p with pc := p.afterTest nsel rset }
  | overrun {p : Parent n} {conn nsel : Int} {rset : Finset Nat}
      (hpc : p.pc = .submitting conn nsel rset) (hnone : p.self.wp.findReady = none) :
      Step p .tau { p with pc := .overrun }
  | scanned {p : Parent n} {nsel : Int} {rset : Finset Nat} (hpc : p.pc = .scanning [] nsel rset) :
      Step p .tau { p with pc := .loopTop }
  | skip {p : Parent n} {i : Fin n} {is : List (Fin n)} {nsel : Int} {rset : Finset Nat}
      (hpc : p.pc = .scanning (i :: is) nsel rset) (hfd : (p.self.wp.worker i).pipefd ∉ rset) :
      Step p .tau { p with pc := .scanning is nsel rset }
  | stopped {p : Parent n} (hpc : p.pc = .terminating []) : Step p .tau { p with pc := .waiting }
  | select {p : Parent n} (hpc : p.pc = .loopTop) :
      Step p .select { p with pc := .inSelect p.self.selectSet }
  | ready {p : Parent n} {rset ready : Finset Nat} (hpc : p.pc = .inSelect rset)
      (hsub : ready ⊆ rset) (hne : ready.Nonempty) (hlt : ∀ fd ∈ ready, fd < p.self.maxfdp) :
      Step p (.selectRet (some ready)) { p with pc := .selected ready.card ready }
  | failed {p : Parent n} {rset : Finset Nat} (hpc : p.pc = .inSelect rset) :
      Step p (.selectRet none) { p with pc := .selected (-1) rset }
  | accept {p : Parent n} {conn nsel : Int} {rset : Finset Nat}
      (hpc : p.pc = .accepting nsel rset) :
      Step p (.accept conn) { p with pc := .submitting conn nsel rset }
  | submit {p : Parent n} {i : Fin n} {conn nsel : Int} {rset : Finset Nat} {ret : SendRet}
      (hpc : p.pc = .submitting conn nsel rset) (hi : p.self.wp.findReady = some i)
      (hret : ret ≠ .sigpipe) :
      Step p (.sendmsg i cmdConn conn ret)
        { p.setPool (p.self.wp.markBusy i) with pc := .closing conn nsel rset }
  | submitKilled {p : Parent n} {i : Fin n} {conn nsel : Int} {rset : Finset Nat}
      (hpc : p.pc = .submitting conn nsel rset) (hi : p.self.wp.findReady = some i) :
      Step p (.sendmsg i cmdConn conn .sigpipe)
        { p.setPool (p.self.wp.markBusy i) with pc := .killed }
  | close {p : Parent n} {conn nsel : Int} {rset : Finset Nat}
      (hpc : p.pc = .closing conn nsel rset) :
      Step p (.close conn) { p with pc := afterClose nsel rset }
  | readEof {p : Parent n} {i : Fin n} {is : List (Fin n)} {nsel : Int} {rset : Finset Nat}
      (hpc : p.pc = .scanning (i :: is) nsel rset) (hfd : (p.self.wp.worker i).pipefd ∈ rset) :
      Step p (.read i .eof) { p with pc := .loopTop }
  | free {p : Parent n} {i : Fin n} {is : List (Fin n)} {nsel : Int} {rset : Finset Nat}
      {ret : ReadRet} (hpc : p.pc = .scanning (i :: is) nsel rset)
      (hfd : (p.self.wp.worker i).pipefd ∈ rset)
      (hret : ret ≠ .eof) :
      Step p (.read i ret) { p.setPool (p.self.wp.markFree i) with pc := afterRead is nsel rset }
  | stop {p : Parent n} {i : Fin n} {is : List (Fin n)} {ret : SendRet}
      (hpc : p.pc = .terminating (i :: is)) (hret : ret ≠ .sigpipe) :
      Step p (.write i cmdStop ret) { p with pc := .terminating is }
  | stopKilled {p : Parent n} {i : Fin n} {is : List (Fin n)}
      (hpc : p.pc = .terminating (i :: is)) :
      Step p (.write i cmdStop .sigpipe) { p with pc := .killed }
  | reap {p : Parent n} {i : Fin n} (hpc : p.pc = .waiting) : Step p (.wait (some i)) p
  | ret {p : Parent n} (hpc : p.pc = .waiting) : Step p (.wait none) { p with pc := .returned }
  | sigint {p : Parent n} : Step p .sigint { p with serverStop := true, pc := afterSignal p.pc }

theorem step_cases {p q : Parent n} {c : Call n} (h : p.step c = some q) : Step p c q := by
  cases c with
  | tau =>
      rw [step] at h
      split at h
      · rename_i hpc; cases h; exact .enter hpc
      · rename_i hpc; cases h; exact .test hpc
      · rename_i hpc
        split at h
        · rename_i hnone
          cases h
          refine .overrun hpc ?_
          simpa [WorkerPool.workersSubmitConn] using hnone
        · exact absurd h (by simp)
      · rename_i hpc; cases h; exact .scanned hpc
      · rename_i hpc
        split at h
        · exact absurd h (by simp)
        · rename_i hfd; cases h; exact .skip hpc hfd
      · rename_i hpc; cases h; exact .stopped hpc
      · exact absurd h (by simp)
  | select =>
      rw [step] at h
      split at h
      · rename_i hpc; cases h; exact .select hpc
      · exact absurd h (by simp)
  | selectRet ready =>
      cases ready with
      | none =>
          rw [step] at h
          split at h
          · rename_i hpc; cases h; exact .failed hpc
          · exact absurd h (by simp)
      | some ready =>
          rw [step] at h
          split at h
          · rename_i hpc
            split at h
            · rename_i hr; cases h; exact .ready hpc hr.1 hr.2.1 hr.2.2
            · exact absurd h (by simp)
          · exact absurd h (by simp)
  | accept conn =>
      rw [step] at h
      split at h
      · rename_i hpc; cases h; exact .accept hpc
      · exact absurd h (by simp)
  | sendmsg i b conn ret =>
      rw [step] at h
      split at h
      · rename_i hpc
        split at h
        · rename_i wp j hsub
          split at h
          · rename_i hargs
            obtain ⟨rfl, rfl, rfl⟩ := hargs
            obtain ⟨k, hk, hkj⟩ := Option.map_eq_some_iff.mp hsub
            cases hkj
            cases h
            by_cases hret : ret = .sigpipe
            · subst hret; exact .submitKilled hpc hk
            · simp only [if_neg hret]; exact .submit hpc hk hret
          · exact absurd h (by simp)
        · exact absurd h (by simp)
      · exact absurd h (by simp)
  | close fd =>
      rw [step] at h
      split at h
      · rename_i hpc
        split at h
        · rename_i hfd; subst hfd; cases h; exact .close hpc
        · exact absurd h (by simp)
      · exact absurd h (by simp)
  | read i ret =>
      rw [step] at h
      split at h
      · rename_i hpc
        split at h
        · rename_i hi
          obtain ⟨rfl, hfd⟩ := hi
          split at h
          · rename_i hret; subst hret; cases h; exact .readEof hpc hfd
          · rename_i hret; cases h; exact .free hpc hfd hret
        · exact absurd h (by simp)
      · exact absurd h (by simp)
  | write i b ret =>
      rw [step] at h
      split at h
      · rename_i hpc
        split at h
        · rename_i hi
          obtain ⟨rfl, rfl⟩ := hi
          cases h
          by_cases hret : ret = .sigpipe
          · subst hret; exact .stopKilled hpc
          · simp only [if_neg hret]; exact .stop hpc hret
        · exact absurd h (by simp)
      · exact absurd h (by simp)
  | wait child =>
      rw [step] at h
      split at h
      · rename_i hpc
        cases h
        cases child with
        | none => exact .ret hpc
        | some i =>
            have : ({ p with pc := .waiting } : Parent n) = p := by cases p; simp_all
            simp only [Option.isSome_some, if_true, this]
            exact .reap hpc
      · exact absurd h (by simp)
  | sigint => cases h; exact .sigint

/-! ## What can happen at one place -/

theorem step_test {self : Server n} {p : Parent n} {nsel : Int} {rset : Finset Nat}
    (hpc : p.pc = .selected nsel rset) :
    (lts self).step p .tau = some { p with pc := p.afterTest nsel rset } := by
  show p.step .tau = _
  simp only [step, hpc]

/-- The handler changes nothing but the flag, except for a parent that waits in `select`. -/
def signalled (p : Parent n) : Parent n := { p with serverStop := true, pc := afterSignal p.pc }

theorem Step.of_selected {p q : Parent n} {c : Call n} {nsel : Int} {rset : Finset Nat}
    (h : Step p c q) (hpc : p.pc = .selected nsel rset) :
    (c = .tau ∧ q = { p with pc := p.afterTest nsel rset }) ∨ (c = .sigint ∧ q = p.signalled) := by
  cases h with
  | test hpc' => rw [hpc] at hpc'; cases hpc'; exact .inl ⟨rfl, rfl⟩
  | sigint => exact .inr ⟨rfl, rfl⟩
  | _ => simp_all

theorem Step.of_accepting {p q : Parent n} {c : Call n} {nsel : Int} {rset : Finset Nat}
    (h : Step p c q) (hpc : p.pc = .accepting nsel rset) :
    (∃ conn, c = .accept conn ∧ q = { p with pc := .submitting conn nsel rset }) ∨
      (c = .sigint ∧ q = p.signalled) := by
  cases h with
  | accept hpc' => rw [hpc] at hpc'; cases hpc'; exact .inl ⟨_, rfl, rfl⟩
  | sigint => exact .inr ⟨rfl, rfl⟩
  | _ => simp_all

/-- With a ready worker there is one to hand the connection to. -/
theorem Step.of_submitting {p q : Parent n} {c : Call n} {conn nsel : Int} {rset : Finset Nat}
    {i : Fin n} (h : Step p c q) (hpc : p.pc = .submitting conn nsel rset)
    (hi : p.self.wp.findReady = some i) :
    (∃ ret, c = .sendmsg i cmdConn conn ret ∧
        q = { p.setPool (p.self.wp.markBusy i) with
          pc := if ret = .sigpipe then .killed else .closing conn nsel rset }) ∨
      (c = .sigint ∧ q = p.signalled) := by
  cases h with
  | overrun hpc' hnone => rw [hi] at hnone; cases hnone
  | @submit j _ _ _ ret hpc' hj hret =>
      rw [hpc] at hpc'
      rw [hi] at hj
      cases hpc'
      cases hj
      exact .inl ⟨ret, rfl, by rw [if_neg hret]⟩
  | @submitKilled j _ _ _ hpc' hj =>
      rw [hpc] at hpc'
      rw [hi] at hj
      cases hpc'
      cases hj
      exact .inl ⟨.sigpipe, rfl, by rw [if_pos rfl]⟩
  | sigint => exact .inr ⟨rfl, rfl⟩
  | _ => simp_all

theorem Step.of_closing {p q : Parent n} {c : Call n} {conn nsel : Int} {rset : Finset Nat}
    (h : Step p c q) (hpc : p.pc = .closing conn nsel rset) :
    (c = .close conn ∧ q = { p with pc := afterClose nsel rset }) ∨
      (c = .sigint ∧ q = p.signalled) := by
  cases h with
  | close hpc' => rw [hpc] at hpc'; cases hpc'; exact .inl ⟨rfl, rfl⟩
  | sigint => exact .inr ⟨rfl, rfl⟩
  | _ => simp_all

/-! ## What no step changes -/

/-- The two parents watch the same descriptors. -/
structure SameLayout (p q : Parent n) : Prop where
  sockFd : q.self.sockFd = p.self.sockFd
  masterset : q.self.masterset = p.self.masterset
  maxfdp : q.self.maxfdp = p.self.maxfdp
  pipefd : ∀ i, (q.self.wp.worker i).pipefd = (p.self.wp.worker i).pipefd

theorem SameLayout.refl (p : Parent n) : SameLayout p p := ⟨rfl, rfl, rfl, fun _ => rfl⟩

theorem SameLayout.trans {p q r : Parent n} (h₁ : SameLayout p q) (h₂ : SameLayout q r) :
    SameLayout p r where
  sockFd := h₂.sockFd.trans h₁.sockFd
  masterset := h₂.masterset.trans h₁.masterset
  maxfdp := h₂.maxfdp.trans h₁.maxfdp
  pipefd := fun i => (h₂.pipefd i).trans (h₁.pipefd i)

/-- **The loop never changes what it watches**: not `masterset`, not `maxfdp`, no descriptor. -/
theorem Step.layout {p q : Parent n} {c : Call n} (h : Step p c q) : SameLayout p q := by
  cases h with
  | submit hpc hi hret => exact ⟨rfl, rfl, rfl, fun j => WorkerPool.markBusy_pipefd _ _ j⟩
  | submitKilled hpc hi => exact ⟨rfl, rfl, rfl, fun j => WorkerPool.markBusy_pipefd _ _ j⟩
  | free hpc hfd hret => exact ⟨rfl, rfl, rfl, fun j => WorkerPool.markFree_pipefd _ _ j⟩
  | _ => exact ⟨rfl, rfl, rfl, fun _ => rfl⟩

theorem layout_run {self : Server n} {ok : Parent n → Call n → Prop} {p q : Parent n}
    {ls : List (Call n)} (h : (lts self).Run ok p ls q) : SameLayout p q := by
  induction h with
  | nil p => exact .refl p
  | cons _ hs _ ih => exact (step_cases hs).layout.trans ih

section Dispatched

variable {c : Numbering n} {p : Parent n}

theorem SameLayout.pipefd_eq (h : SameLayout (start c.server) p) (i : Fin n) :
    (p.self.wp.worker i).pipefd = c.pipe i := by
  rw [h.pipefd i]
  show (c.server.wp.worker i).pipefd = c.pipe i
  rw [c.server_worker]

theorem SameLayout.sockFd_eq (h : SameLayout (start c.server) p) : p.self.sockFd = c.sockFd := by
  rw [h.sockFd]
  exact c.server_sockFd

/-- Every channel is always in the set given to `select`. -/
theorem SameLayout.pipe_mem_selectSet (h : SameLayout (start c.server) p) (i : Fin n) :
    (p.self.wp.worker i).pipefd ∈ p.self.selectSet := by
  have hmem : (p.self.wp.worker i).pipefd ∈ p.self.masterset := by
    rw [h.masterset, h.pipefd_eq]
    exact (c.mem_masterset _).mpr (.inr ⟨i, rfl⟩)
  have hne : (p.self.wp.worker i).pipefd ≠ p.self.sockFd := by
    rw [h.sockFd_eq, h.pipefd_eq]
    exact c.pipe_ne i
  unfold Server.selectSet
  split
  · exact Finset.mem_erase.mpr ⟨hne, hmem⟩
  · exact hmem

end Dispatched

end Parent

end TcpServer
