import TcpServer.Model.Echo
import TcpServer.Model.Log

/-!
# All that a worker prints

A worker's callbacks print their pages, and the loop around them logs: a line when
it starts, one for each connection it is done with, an error at end-of-file. Both
go to the worker's `stdout`. `ownOutput` is the text that its calls have printed in
a run of the echo service, in the order in which it was printed.

Something may stand before it. What the parent had printed but not written yet was
copied by `fork` along with the buffer it was in, and the worker writes it as well.

What each call of `log_msg` finds, on the stack and in the way of time, is a
parameter.
-/

namespace TcpServer

open CString

/-- `MODULE_NAME` of `worker_pool.c`. -/
def workerPoolModule : Str := ⟨"worker_pool".toList, by decide⟩

/-- The character that a change of colour begins with. -/
def escape : Char := '\x1b'

/-- What a call of `log_msg` finds. `strftime` writes digits and punctuation. -/
structure LogSite where
  stack : Nat → Char
  timestamp : Timestamp
  plain : escape ∉ timestamp.chars

/-- What the loop in worker `pid` logs: on its way into the loop, at end-of-file, and before it
reports. -/
def WorkerCall.logged (pid : Int) (site : LogSite) : WorkerCall → List Char
  | .plumb =>
      (logMsg site.stack site.timestamp workerPoolModule 128 .info
        ("Worker ".toList ++ Numerals.decimal pid ++ " starting ...".toList)).stdout
  | .ipcFdRead .eof =>
      (logMsg site.stack site.timestamp workerPoolModule 134 .err
        "read_fd returned 0".toList).stdout
  | .write _ =>
      (logMsg site.stack site.timestamp workerPoolModule 159 .info "done".toList).stdout
  | _ => []

namespace Echo

variable {n : Nat}

/-- What worker `i` prints in one action. -/
def prints (pid : Int) (site : LogSite) (i : Fin n) (e : Echo n) : EchoLabel n → List Char
  | .sys (.worker j call) => if j = i then call.logged pid site else []
  | .callback j call => if j = i then printed (e.callback i) call else []
  | _ => []

/-- What its calls print in a run, from instant `t` on. -/
def ownOutput (pid : Int) (site : Nat → LogSite) (i : Fin n) :
    Nat → Echo n → List (EchoLabel n) → List Char
  | _, _, [] => []
  | t, e, l :: ls =>
      match e.step l with
      | some e' => e.prints pid (site t) i l ++ ownOutput pid site i (t + 1) e' ls
      | none => []

/-- All that comes out of its `stdout`, if `inherited` was in the buffer when it was forked. -/
def transcript (inherited : List Char) (pid : Int) (site : Nat → LogSite) (i : Fin n)
    (e : Echo n) (ls : List (EchoLabel n)) : List Char :=
  inherited ++ ownOutput pid site i 0 e ls

end Echo

end TcpServer
