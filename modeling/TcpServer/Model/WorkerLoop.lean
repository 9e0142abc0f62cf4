import TcpServer.Model.Run

/-!
# The worker loop

The child's side of `worker_pool_dispatch_worker`: the `for (;;)` loop that reads
a command from its channel, runs the callback on the connection that came with
it, closes the connection and reports back. As for the parent, an action is one
call with what it returned.

`cmd` and `conn` live outside the loop in the source and keep their values from
one iteration to the next; a failed `ipc_fd_read` leaves them as they were.
-/

namespace TcpServer

/-- What one `ipc_fd_read(STDERR_FILENO, &cmd, 1, &conn)` did: returned `0`, returned `-1`
with `cmd` and `conn` unchanged, or returned `1` having stored a byte and a descriptor
(`-1` when none was passed). -/
inductive IpcRead where
  | eof
  | err
  | got (byte : UInt8) (recvfd : Int)
  deriving DecidableEq, Repr

/-- One call of a worker with its outcome. -/
inductive WorkerCall where
  /-- The code before the loop: `dup2` over `STDERR_FILENO` and the closes. -/
  | plumb
  | ipcFdRead (ret : IpcRead)
  /-- `callback(conn, ctx)` is entered. -/
  | callback (conn : Int)
  /-- It returns. -/
  | callbackRet
  | close (fd : Int)
  /-- `write(STDERR_FILENO, "d", 1)`. -/
  | write (b : UInt8)
  deriving DecidableEq, Repr

/-- Where a worker's control is. -/
inductive WorkerPc where
  | prologue
  /-- In, or on its way to, `ipc_fd_read`. -/
  | reading
  /-- About to enter the callback. -/
  | serving
  | inCallback
  /-- About to `close(conn)`. -/
  | closing
  /-- About to write the completion byte. -/
  | reporting
  /-- `exit(0)` after `'s'`. -/
  | stopped
  /-- `exit(0)` after end-of-file. -/
  | hungUp
  /-- Ended by something other than its own `exit`. -/
  | dead
  deriving DecidableEq, Repr

/-- A worker process. -/
structure WorkerProc where
  pc : WorkerPc
  cmd : UInt8
  conn : Int
  deriving DecidableEq, Repr

namespace WorkerProc

/-- A worker just forked. `cmd` is uninitialised in the source: any byte. -/
def start (cmd : UInt8) : WorkerProc where
  pc := .prologue
  cmd := cmd
  conn := -1

/-- The loop body after `ipc_fd_read` returned something other than `0`. -/
def dispatchCmd (p : WorkerProc) : WorkerProc :=
  if p.cmd = cmdStop then { p with pc := .stopped }
  else if p.conn < 0 then { p with pc := .reading }
  else { p with pc := .serving }

/-- One step of a worker, if the call is one it makes here. -/
def step (p : WorkerProc) : WorkerCall → Option WorkerProc
  | .plumb => if p.pc = .prologue then some { p with pc := .reading } else none
  | .ipcFdRead ret =>
      if p.pc = .reading then
        match ret with
        | .eof => some { p with pc := .hungUp }
        | .err => some p.dispatchCmd
        | .got byte recvfd => some { p with cmd := byte, conn := recvfd }.dispatchCmd
      else none
  | .callback conn =>
      if p.pc = .serving ∧ conn = p.conn then some { p with pc := .inCallback } else none
  | .callbackRet => if p.pc = .inCallback then some { p with pc := .closing } else none
  | .close fd => if p.pc = .closing ∧ fd = p.conn then some { p with pc := .reporting } else none
  | .write b => if p.pc = .reporting ∧ b = cmdDone then some { p with pc := .reading } else none

/-- The process has ended, in whichever way. -/
def gone (p : WorkerProc) : Bool := p.pc = .stopped ∨ p.pc = .hungUp ∨ p.pc = .dead

/-- A worker on its own, with any outcome of its calls. -/
def lts (cmd : UInt8) : Lts WorkerProc WorkerCall where
  init p := p = start cmd
  step := step

@[simp] theorem conn_dispatchCmd (p : WorkerProc) : p.dispatchCmd.conn = p.conn := by
  unfold dispatchCmd
  split
  · rfl
  · split <;> rfl

@[simp] theorem cmd_dispatchCmd (p : WorkerProc) : p.dispatchCmd.cmd = p.cmd := by
  unfold dispatchCmd
  split
  · rfl
  · split <;> rfl

/-! ## Everything a step can do -/

/-- The steps, one constructor for each call. -/
inductive Step : WorkerProc → WorkerCall → WorkerProc → Prop
  | plumb {p : WorkerProc} (hpc : p.pc = .prologue) : Step p .plumb { p with pc := .reading }
  | eof {p : WorkerProc} (hpc : p.pc = .reading) :
      Step p (.ipcFdRead .eof) { p with pc := .hungUp }
  | err {p : WorkerProc} (hpc : p.pc = .reading) : Step p (.ipcFdRead .err) p.dispatchCmd
  | got {p : WorkerProc} {byte : UInt8} {recvfd : Int} (hpc : p.pc = .reading) :
      Step p (.ipcFdRead (.got byte recvfd)) { p with cmd := byte, conn := recvfd }.dispatchCmd
  | callback {p : WorkerProc} (hpc : p.pc = .serving) :
      Step p (.callback p.conn) { p with pc := .inCallback }
  | callbackRet {p : WorkerProc} (hpc : p.pc = .inCallback) :
      Step p .callbackRet { p with pc := .closing }
  | close {p : WorkerProc} (hpc : p.pc = .closing) :
      Step p (.close p.conn) { p with pc := .reporting }
  | report {p : WorkerProc} (hpc : p.pc = .reporting) :
      Step p (.write cmdDone) { p with pc := .reading }

theorem step_cases {p q : WorkerProc} {c : WorkerCall} (h : p.step c = some q) : Step p c q := by
  cases c with
  | plumb =>
      simp only [step, Option.ite_none_right_eq_some, Option.some.injEq] at h
      obtain ⟨hpc, rfl⟩ := h
      exact .plumb hpc
  | ipcFdRead ret =>
      simp only [step, Option.ite_none_right_eq_some] at h
      obtain ⟨hpc, h⟩ := h
      cases ret with
      | eof => cases h; exact .eof hpc
      | err => cases h; exact .err hpc
      | got byte recvfd => cases h; exact .got hpc
  | callback conn =>
      simp only [step, Option.ite_none_right_eq_some, Option.some.injEq] at h
      obtain ⟨⟨hpc, rfl⟩, rfl⟩ := h
      exact .callback hpc
  | callbackRet =>
      simp only [step, Option.ite_none_right_eq_some, Option.some.injEq] at h
      obtain ⟨hpc, rfl⟩ := h
      exact .callbackRet hpc
  | close fd =>
      simp only [step, Option.ite_none_right_eq_some, Option.some.injEq] at h
      obtain ⟨⟨hpc, rfl⟩, rfl⟩ := h
      exact .close hpc
  | write b =>
      simp only [step, Option.ite_none_right_eq_some, Option.some.injEq] at h
      obtain ⟨⟨hpc, rfl⟩, rfl⟩ := h
      exact .report hpc

end WorkerProc

end TcpServer
