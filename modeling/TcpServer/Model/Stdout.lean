import TcpServer.Model.Dispatch

/-!
# Log lines on their way to a file

`stdout` when it is no terminal: `log_msg` puts its line into a buffer of the
process, and it stays there until the buffer is full or `exit` writes what it
holds. `fork` copies the buffer with everything else.

The processes are the parent and its workers. The parent is the one of
`TcpServer.Model.Dispatch`, from the call of `worker_pool_new` on, which logs a
line; it may log others at any time. Its buffer is large enough for what it logs
before `tcp_server_dispatch` returns. A line is known by its number, whatever
its text.
-/

namespace TcpServer

/-- A process: `none` is the parent. -/
abbrev Process (n : Nat) := Option (Fin n)

/-- A line that was logged. -/
structure LogLine (n : Nat) where
  author : Process n
  nr : Nat
  /-- History: how many workers had been forked then. -/
  forks : Nat
  deriving DecidableEq

/-- `stdout` of a process. -/
inductive Stdio (n : Nat) where
  /-- The process does not exist yet. -/
  | absent
  | running (buffer : List (LogLine n))
  /-- It has called `exit`. -/
  | exited
  deriving DecidableEq

/-- What it has not written yet. -/
def Stdio.buffer {n : Nat} : Stdio n → List (LogLine n)
  | running buffer => buffer
  | absent | exited => []

@[simp] theorem Stdio.buffer_running {n : Nat} (buffer : List (LogLine n)) :
    (Stdio.running buffer).buffer = buffer := rfl

@[simp] theorem Stdio.buffer_absent {n : Nat} : (Stdio.absent : Stdio n).buffer = [] := rfl

@[simp] theorem Stdio.buffer_exited {n : Nat} : (Stdio.exited : Stdio n).buffer = [] := rfl

/-- What happens next. -/
inductive LogAction (n : Nat) where
  /-- A process calls `log_msg`. -/
  | log (who : Process n)
  /-- The parent calls `worker_pool_new`. -/
  | poolNew
  /-- It makes a call of `tcp_server_dispatch`. -/
  | dispatch (c : DispatchCall)
  /-- A buffer is full: its first `k` lines are written. -/
  | spill (who : Process n) (k : Nat)
  | exit (who : Process n)
  deriving DecidableEq

/-- The processes and the file. -/
structure Stdout (n : Nat) where
  parent : Dispatching n
  /-- `worker_pool_new` has returned. -/
  pool : Bool
  stdio : Process n → Stdio n
  output : List (LogLine n)
  /-- History: all lines logged. -/
  lines : List (LogLine n)
  /-- History: how many workers have been forked. -/
  forks : Nat

namespace Stdout

variable {n : Nat}

/-- Before the first line. -/
def start (self : Listener) (fds : Descriptors (File n)) : Stdout n where
  parent := Dispatching.start self fds
  pool := false
  stdio := fun who => if who = none then .running [] else .absent
  output := []
  lines := []
  forks := 0

/-- The line that `who` would log now. -/
def nextLine (s : Stdout n) (who : Process n) : LogLine n := ⟨who, s.lines.length, s.forks⟩

/-- `log_msg` in a process with this in its buffer. -/
def logMsg (s : Stdout n) (who : Process n) (buffer : List (LogLine n)) : Stdout n :=
  { s with
    stdio := Function.update s.stdio who (.running (buffer ++ [s.nextLine who]))
    lines := s.lines ++ [s.nextLine who] }

/-- `fork` returned in the parent, with `buffer` in the buffers of both. -/
def forkWorker (s : Stdout n) (parent : Dispatching n) (i : Fin n) (buffer : List (LogLine n)) :
    Stdout n :=
  { s with
    parent := parent
    stdio := Function.update s.stdio (some i) (.running buffer)
    forks := s.forks + 1 }

/-- A process has written `out` and is left with `io`. -/
def write (s : Stdout n) (who : Process n) (io : Stdio n) (out : List (LogLine n)) : Stdout n :=
  { s with
    stdio := Function.update s.stdio who io
    output := s.output ++ out }

/-- The parent is still before the end of `tcp_server_dispatch`. -/
def Held (s : Stdout n) (who : Process n) : Prop := who = none ∧ s.parent.pc ≠ .returned 0

instance (s : Stdout n) (who : Process n) : Decidable (s.Held who) :=
  inferInstanceAs (Decidable (_ ∧ _))

/-- One step. A `fork` that fails, or that is seen from the child, is not followed: the parent goes
on to exit as the parent, after all workers. -/
def step (s : Stdout n) : LogAction n → Option (Stdout n)
  | .log who =>
      match s.stdio who with
      | .running buffer => some (s.logMsg who buffer)
      | _ => none
  | .poolNew =>
      match s.pool, s.stdio none with
      | false, .running buffer => some { s.logMsg none buffer with pool := true }
      | _, _ => none
  | .dispatch c =>
      match s.pool, s.stdio none, s.parent.step c with
      | true, .running buffer, some parent =>
          match c, s.parent.pc with
          | .fork pid, .forking i _ _ _ =>
              if 0 < pid then some (s.forkWorker parent i buffer) else none
          | _, _ => some { s with parent := parent }
      | _, _, _ => none
  | .spill who k =>
      match s.stdio who with
      | .running buffer =>
          if s.Held who then none
          else some (s.write who (.running (buffer.drop k)) (buffer.take k))
      | _ => none
  | .exit who =>
      match s.stdio who with
      | .running buffer =>
          if s.Held who then none else some (s.write who .exited buffer)
      | _ => none

/-- A server that logs, with any order of the steps of its processes. -/
def lts (self : Listener) (fds : Descriptors (File n)) : Lts (Stdout n) (LogAction n) where
  init s := s = start self fds
  step := step

/-! ## Everything a step can do -/

/-- The steps, one constructor for each kind. -/
inductive Step : Stdout n → LogAction n → Stdout n → Prop
  | log {s : Stdout n} {who : Process n} {buffer : List (LogLine n)}
      (hio : s.stdio who = .running buffer) : Step s (.log who) (s.logMsg who buffer)
  | poolNew {s : Stdout n} {buffer : List (LogLine n)} (hpool : s.pool = false)
      (hio : s.stdio none = .running buffer) :
      Step s .poolNew { s.logMsg none buffer with pool := true }
  | call {s : Stdout n} {c : DispatchCall} {parent : Dispatching n} (hpool : s.pool = true)
      (hno : ∀ pid, c ≠ .fork pid) (hstep : Dispatching.Step s.parent c parent) :
      Step s (.dispatch c) { s with parent := parent }
  | fork {s : Stdout n} {pid : Int} {parent : Dispatching n} {i : Fin n} {is : List (Fin n)}
      {a b : Nat} {buffer : List (LogLine n)} (hpool : s.pool = true)
      (hio : s.stdio none = .running buffer) (hpc : s.parent.pc = .forking i is a b)
      (hnext : parent.pc = .looping is) :
      Step s (.dispatch (.fork pid)) (s.forkWorker parent i buffer)
  | spill {s : Stdout n} {who : Process n} {k : Nat} {buffer : List (LogLine n)}
      (hio : s.stdio who = .running buffer) (hheld : ¬ s.Held who) :
      Step s (.spill who k) (s.write who (.running (buffer.drop k)) (buffer.take k))
  | exit {s : Stdout n} {who : Process n} {buffer : List (LogLine n)}
      (hio : s.stdio who = .running buffer) (hheld : ¬ s.Held who) :
      Step s (.exit who) (s.write who .exited buffer)

theorem step_cases {s t : Stdout n} {a : LogAction n} (h : s.step a = some t) : Step s a t := by
  cases a with
  | log who =>
      rw [step] at h
      split at h
      · rename_i hio; cases h; exact .log hio
      · exact absurd h (by simp)
  | poolNew =>
      rw [step] at h
      split at h
      · rename_i hpool hio; cases h; exact .poolNew hpool hio
      · exact absurd h (by simp)
  | dispatch c =>
      rw [step] at h
      split at h
      · rename_i buffer parent hpool hio hparent
        have hstep := Dispatching.step_cases hparent
        split at h
        · rename_i pid i is a b hpc
          split at h
          · rename_i hpid
            cases h
            cases hstep with
            | parent hpc' =>
                rw [hpc] at hpc'
                cases hpc'
                exact .fork hpool hio hpc rfl
            | routine _ hneg => omega
          · exact absurd h (by simp)
        · rename_i hno
          cases h
          refine .call hpool ?_ hstep
          rintro pid rfl
          cases hstep with
          | parent hpc => exact hno pid _ _ _ _ rfl hpc
          | routine hpc => exact hno pid _ _ _ _ rfl hpc
      · exact absurd h (by simp)
  | spill who k =>
      rw [step] at h
      split at h
      · rename_i hio
        split at h
        · exact absurd h (by simp)
        · rename_i hheld; cases h; exact .spill hio hheld
      · exact absurd h (by simp)
  | exit who =>
      rw [step] at h
      split at h
      · rename_i hio
        split at h
        · exact absurd h (by simp)
        · rename_i hheld; cases h; exact .exit hio hheld
      · exact absurd h (by simp)

end Stdout

end TcpServer
