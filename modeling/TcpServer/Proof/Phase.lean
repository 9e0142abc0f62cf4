import TcpServer.Model.World

/-!
# The life of one worker

Everything about a single worker that an interleaving can show: its control,
its descriptors, both directions of its channel and its log, together with what
the parent believes about it. `Phase stop sent status nd` lists the few shapes
these can have at once in a system without faults, where `sent` are the
connections the parent has handed to this worker, `status` is the parent's entry
for it and `stop` says whether `'s'` has been sent.

A worker's own steps stay inside the list (`phase_worker`), and so do the three
things the parent does to it: handing over a connection, reading the completion,
sending `'s'`.
-/

namespace TcpServer.Proof

open TcpServer

/-- The stop command, if it has been sent. -/
def stopQueue (stop : Bool) : List Msg := if stop then [⟨cmdStop, none⟩] else []

/-- The worker is in, or on its way to, its next `ipc_fd_read`. -/
def Waiting (p : WorkerProc) : Prop := p.pc = .prologue ∨ p.pc = .reading

/-- The shapes a worker and its channel can have, by the phase it is in. -/
inductive Phase (stop : Bool) : List Conn → Int → Node → Prop
  /-- Ready, and known to be. -/
  | idle {p : WorkerProc} {sent : List Conn} (hp : Waiting p) :
      Phase stop sent 0 ⟨p, [], stopQueue stop, [], false, ⟨sent, sent, sent, sent⟩⟩
  /-- A connection is in flight to it. -/
  | queued {p : WorkerProc} {done : List Conn} {c : Conn} (hp : Waiting p) :
      Phase stop (done ++ [c]) 1
        ⟨p, [], ⟨cmdConn, some c⟩ :: stopQueue stop, [], false, ⟨done, done, done, done⟩⟩
  /-- It has received the connection. -/
  | received {p : WorkerProc} {done : List Conn} {c : Conn} (hp : p.pc = .serving) :
      Phase stop (done ++ [c]) 1
        ⟨p, [(p.conn, c)], stopQueue stop, [], false, ⟨done ++ [c], done, done, done⟩⟩
  /-- The callback is running. -/
  | running {p : WorkerProc} {done : List Conn} {c : Conn} (hp : p.pc = .inCallback) :
      Phase stop (done ++ [c]) 1
        ⟨p, [(p.conn, c)], stopQueue stop, [], false, ⟨done ++ [c], done ++ [c], done, done⟩⟩
  /-- The callback has returned, the connection is still open. -/
  | returned {p : WorkerProc} {done : List Conn} {c : Conn} (hp : p.pc = .closing) :
      Phase stop (done ++ [c]) 1
        ⟨p, [(p.conn, c)], stopQueue stop, [], false, ⟨done ++ [c], done ++ [c], done ++ [c], done⟩⟩
  /-- The connection is closed, the completion not written yet. -/
  | closed {p : WorkerProc} {done : List Conn} {c : Conn} (hp : p.pc = .reporting) :
      Phase stop (done ++ [c]) 1
        ⟨p, [], stopQueue stop, [], false, ⟨done ++ [c], done ++ [c], done ++ [c], done ++ [c]⟩⟩
  /-- The completion is in flight to the parent. -/
  | reported {p : WorkerProc} {done : List Conn} {c : Conn} (hp : p.pc = .reading) :
      Phase stop (done ++ [c]) 1
        ⟨p, [], stopQueue stop, [cmdDone], false,
          ⟨done ++ [c], done ++ [c], done ++ [c], done ++ [c]⟩⟩
  /-- It exited on `'s'` with nothing outstanding. -/
  | exited {p : WorkerProc} {sent : List Conn} {reaped : Bool} (hstop : stop = true)
      (hp : p.pc = .stopped) : Phase stop sent 0 ⟨p, [], [], [], reaped, ⟨sent, sent, sent, sent⟩⟩
  /-- It exited on `'s'`, and the parent never read its last completion. -/
  | exitedReported {p : WorkerProc} {sent : List Conn} {reaped : Bool} (hstop : stop = true)
      (hp : p.pc = .stopped) :
      Phase stop sent 1 ⟨p, [], [], [cmdDone], reaped, ⟨sent, sent, sent, sent⟩⟩

theorem phase_start (cmd : UInt8) : Phase false [] 0 (Node.start cmd) :=
  .idle (.inl rfl)

/-! ## What the worker does next -/

/-- Out of a prologue or a read, only `plumb` and `ipc_fd_read` are possible. -/
theorem Waiting.not_busy {p : WorkerProc} (h : Waiting p) :
    p.pc ≠ .serving ∧ p.pc ≠ .inCallback ∧ p.pc ≠ .closing ∧ p.pc ≠ .reporting := by
  rcases h with h | h <;> rw [h] <;> decide

theorem dispatchCmd_stop {fd : Int} :
    (⟨.reading, cmdStop, fd⟩ : WorkerProc).dispatchCmd = ⟨.stopped, cmdStop, fd⟩ := by
  simp [WorkerProc.dispatchCmd]

theorem dispatchCmd_conn {fd : Int} (hfd : 0 ≤ fd) :
    (⟨.reading, cmdConn, fd⟩ : WorkerProc).dispatchCmd = ⟨.serving, cmdConn, fd⟩ := by
  have hcmd : cmdConn ≠ cmdStop := by decide
  have hneg : ¬ fd < 0 := by omega
  simp [WorkerProc.dispatchCmd, hcmd, hneg]

/-- Closing a process's only connection leaves it none. -/
theorem close_single (fd : Int) (c : Conn) : FdTable.close [(fd, c)] fd = [] := by
  simp [FdTable.close]

/-- The only message in a channel that carries a connection no more is `'s'`. -/
theorem stopQueue_cons {stop : Bool} {m : Msg} {ms : List Msg} (h : stopQueue stop = m :: ms) :
    stop = true ∧ m = ⟨cmdStop, none⟩ ∧ ms = [] := by
  unfold stopQueue at h
  split at h
  · rename_i hstop
    obtain ⟨h1, h2⟩ := List.cons.inj h
    exact ⟨hstop, h1.symm, h2.symm⟩
  · exact absurd h (by simp)

/-- **A worker's own steps stay inside the list.** -/
theorem phase_worker {stop : Bool} {sent : List Conn} {status : Int} {nd nd' : Node}
    {c : WorkerCall} (h : Phase stop sent status nd) (hs : nd.step c = some nd') :
    Phase stop sent status nd' := by
  cases Node.step_cases hs with
  | plumb hpc =>
      cases h with
      | idle hp => exact .idle (.inr rfl)
      | queued hp => exact .queued (.inr rfl)
      | received hp | running hp | returned hp | closed hp | reported hp | exited _ hp
      | exitedReported _ hp => exact absurd (hp.symm.trans hpc) (by simp)
  | recv hpc hin =>
      cases h with
      | idle hp =>
          obtain ⟨hstop, hm, rfl⟩ := stopQueue_cons hin
          cases hm
          rw [dispatchCmd_stop]
          exact .exited hstop rfl
      | queued hp => simp at hin
      | reported hp =>
          obtain ⟨hstop, hm, rfl⟩ := stopQueue_cons hin
          cases hm
          rw [dispatchCmd_stop]
          exact .exitedReported hstop rfl
      | received hp | running hp | returned hp | closed hp | exited _ hp | exitedReported _ hp =>
          exact absurd (hp.symm.trans hpc) (by simp)
  | recvFile hpc hin hfd =>
      cases h with
      | idle hp =>
          obtain ⟨_, hm, _⟩ := stopQueue_cons hin
          cases hm
      | queued hp =>
          simp only [List.cons.injEq, Msg.mk.injEq, Option.some.injEq] at hin
          obtain ⟨⟨rfl, rfl⟩, rfl⟩ := hin
          rw [dispatchCmd_conn hfd.1]
          exact .received rfl
      | reported hp =>
          obtain ⟨_, hm, _⟩ := stopQueue_cons hin
          cases hm
      | received hp | running hp | returned hp | closed hp | exited _ hp | exitedReported _ hp =>
          exact absurd (hp.symm.trans hpc) (by simp)
  | callback hpc =>
      cases h with
      | idle hp | queued hp => exact absurd hpc hp.not_busy.1
      | received hp =>
          simp only [List.lookup_cons_self, Option.toList_some]
          exact .running rfl
      | running hp | returned hp | closed hp | reported hp | exited _ hp | exitedReported _ hp =>
          exact absurd (hp.symm.trans hpc) (by simp)
  | callbackRet hpc =>
      cases h with
      | idle hp | queued hp => exact absurd hpc hp.not_busy.2.1
      | running hp =>
          simp only [List.lookup_cons_self, Option.toList_some]
          exact .returned rfl
      | received hp | returned hp | closed hp | reported hp | exited _ hp | exitedReported _ hp =>
          exact absurd (hp.symm.trans hpc) (by simp)
  | close hpc =>
      cases h with
      | idle hp | queued hp => exact absurd hpc hp.not_busy.2.2.1
      | returned hp =>
          simp only [List.lookup_cons_self, Option.toList_some, close_single]
          exact .closed rfl
      | received hp | running hp | closed hp | reported hp | exited _ hp | exitedReported _ hp =>
          exact absurd (hp.symm.trans hpc) (by simp)
  | report hpc =>
      cases h with
      | idle hp | queued hp => exact absurd hpc hp.not_busy.2.2.2
      | closed hp => exact .reported rfl
      | received hp | running hp | returned hp | reported hp | exited _ hp | exitedReported _ hp =>
          exact absurd (hp.symm.trans hpc) (by simp)

/-! ## What the parent does to it -/

/-- Only an idle worker has status `0` while no stop has been sent. -/
theorem Phase.idle_of_ready {sent : List Conn} {nd : Node} (h : Phase false sent 0 nd) :
    ∃ p, Waiting p ∧ nd = ⟨p, [], [], [], false, ⟨sent, sent, sent, sent⟩⟩ := by
  cases h with
  | @idle p _ hp => exact ⟨p, hp, rfl⟩
  | exited hstop _ => exact absurd hstop (by simp)

/-- Handing a connection to a ready worker puts it in flight. -/
theorem phase_submit {sent : List Conn} {nd : Node} (h : Phase false sent 0 nd) (c : Conn) :
    Phase false (sent ++ [c]) 1 (nd.push ⟨cmdConn, some c⟩) := by
  obtain ⟨p, hp, rfl⟩ := h.idle_of_ready
  exact .queued hp

/-- Reading a byte from a worker that may still run finds the completion of a busy one. -/
theorem phase_collect {sent : List Conn} {status : Int} {nd : Node} {b : UInt8} {bs : List UInt8}
    (h : Phase false sent status nd) (hb : nd.outbox = b :: bs) :
    status = 1 ∧ Phase false sent 0 { nd with outbox := bs } := by
  cases h with
  | idle hp | queued hp | received hp | running hp | returned hp | closed hp => simp at hb
  | reported hp =>
      obtain ⟨_, rfl⟩ := List.cons.inj hb
      exact ⟨rfl, .idle (.inr hp)⟩
  | exited hstop _ | exitedReported hstop _ => exact absurd hstop (by simp)

/-- Sending `'s'` leaves everything else as it is. -/
theorem phase_stop {sent : List Conn} {status : Int} {nd : Node}
    (h : Phase false sent status nd) : Phase true sent status (nd.push ⟨cmdStop, none⟩) := by
  cases h with
  | idle hp => exact .idle hp
  | queued hp => exact .queued hp
  | received hp => exact .received hp
  | running hp => exact .running hp
  | returned hp => exact .returned hp
  | closed hp => exact .closed hp
  | reported hp => exact .reported hp
  | exited hstop _ | exitedReported hstop _ => exact absurd hstop (by simp)

/-- Reaping a worker that has ended changes nothing it can show. -/
theorem phase_reap {stop : Bool} {sent : List Conn} {status : Int} {nd : Node}
    (h : Phase stop sent status nd) (hgone : nd.proc.gone = true) :
    Phase stop sent status { nd with reaped := true } := by
  cases h with
  | exited hstop hp => exact .exited hstop hp
  | exitedReported hstop hp => exact .exitedReported hstop hp
  | idle hp | queued hp => rcases hp with hp | hp <;> simp [WorkerProc.gone, hp] at hgone
  | received hp | running hp | returned hp | closed hp | reported hp =>
      simp [WorkerProc.gone, hp] at hgone

/-! ## What the list says -/

/-- Before `'s'` is sent no worker has ended. -/
theorem Phase.not_gone {sent : List Conn} {status : Int} {nd : Node}
    (h : Phase false sent status nd) : nd.proc.gone = false := by
  cases h with
  | idle hp | queued hp => rcases hp with hp | hp <;> simp [WorkerProc.gone, hp]
  | received hp | running hp | returned hp | closed hp | reported hp => simp [WorkerProc.gone, hp]
  | exited hstop _ | exitedReported hstop _ => exact absurd hstop (by simp)

/-- A worker that has ended, or been reaped, exited on `'s'` with all its work done. -/
theorem Phase.gone_done {stop : Bool} {sent : List Conn} {status : Int} {nd : Node}
    (h : Phase stop sent status nd) (hgone : nd.proc.gone = true ∨ nd.reaped = true) :
    nd.proc.pc = .stopped ∧ nd.inbox = [] ∧ nd.fds = [] ∧ nd.log = ⟨sent, sent, sent, sent⟩ := by
  cases h with
  | exited _ hp | exitedReported _ hp => exact ⟨hp, rfl, rfl, rfl⟩
  | idle hp | queued hp => rcases hp with hp | hp <;> simp [WorkerProc.gone, hp] at hgone
  | received hp | running hp | returned hp | closed hp | reported hp =>
      simp [WorkerProc.gone, hp] at hgone

end TcpServer.Proof
