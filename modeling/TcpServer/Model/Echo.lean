import TcpServer.Model.Hexdump
import TcpServer.Model.World
import TcpServer.Lib.Bytes

/-!
# The echo service

The callback that both programs pass to `tcp_server_dispatch`: it reads once from
the connection, prints what it read and writes it back. `server_connection_cb` of
the library's own test and `my_connection_callback` of the example are the same
code, so they are one definition (`Callback.step`).

`Echo` is the composed system with this callback running in its workers and with
the clients at the other end. A client sends what it likes, when it likes, and may
say that it has finished. The system underneath is `World`, unchanged: a worker
enters the callback where it did before, and comes back from it only when the
callback has got to its end.

A callback's calls go to the connection that its worker's descriptor names. `sent`,
`reads` and `writes` are history.
-/

namespace TcpServer

/-- One call of the callback with its outcome. -/
inductive CallbackCall where
  /-- `read(conn, rx_buffer, ..)` stores bytes, none at end-of-file, or returns `-1`. -/
  | read (ret : Option (List UInt8))
  /-- `hexdump(.., rx_buffer, rx_bytes)` returns, its loops having gone round `fuel` times at
  most. -/
  | hexdump (fuel : Nat)
  /-- `write(conn, rx_buffer, rx_bytes)` takes some bytes, or returns `-1`. -/
  | write (ret : Option Nat)
  deriving DecidableEq, Repr

/-- Where control is in the callback. -/
inductive CallbackPc where
  | reading
  | dumping
  | writing
  | done
  deriving DecidableEq, Repr

/-- A run of the callback on the descriptor `conn`. -/
structure Callback where
  pc : CallbackPc
  conn : Int
  rxBytes : BitVec 32
  rxBuffer : Bytes.Buffer

namespace Callback

/-- It is called. `rx_buffer` is not initialised. -/
def enter (f : Callback) (conn : Int) : Callback :=
  { f with pc := .reading, conn := conn, rxBytes := 0 }

/-- What `hexdump` prints, if it returns. -/
def dumped (desc : List Char) (f : Callback) (fuel : Nat) : Option (List Char) :=
  (TcpServer.hexdump fuel (some desc) f.rxBuffer f.rxBytes).map fun r => r.2.stdout

/-- `rx_bytes` as the `size_t` that `write` is given. -/
def size (f : Callback) : Nat := (f.rxBytes.signExtend 64).toNat

/-- `buf` as it is after `read` has stored `bs` in it. -/
def stored (buf : Bytes.Buffer) (bs : List UInt8) : Bytes.Buffer :=
  Bytes.overwrite buf (fun i => bs.getD i 0) bs.length

/-- One step of the callback with a buffer of `rxSize` bytes, announced as `desc`. -/
def step (rxSize : Nat) (desc : List Char) (f : Callback) : CallbackCall → Option Callback
  | .read none => if f.pc = .reading then some { f with pc := .dumping, rxBytes := -1 } else none
  | .read (some bs) =>
      if f.pc = .reading ∧ bs.length ≤ rxSize then
        some { f with
          pc := .dumping
          rxBytes := BitVec.ofNat 32 bs.length
          rxBuffer := stored f.rxBuffer bs }
      else none
  | .hexdump fuel =>
      if f.pc = .dumping ∧ (f.dumped desc fuel).isSome = true then some { f with pc := .writing }
      else none
  | .write _ => if f.pc = .writing then some { f with pc := .done } else none

end Callback

/-- The size of `rx_buffer`, in either program. -/
def rxSize : Nat := 1500

/-- `"RX Buffer"`, in either program. -/
def rxDesc : List Char := "RX Buffer".toList

/-- The callback of `tcp_server_test`. -/
def serverConnectionCb : Callback → CallbackCall → Option Callback := Callback.step rxSize rxDesc

/-- The callback of the example server. -/
def myConnectionCallback : Callback → CallbackCall → Option Callback := Callback.step rxSize rxDesc

/-- A connection as its client sees it. -/
structure Stream where
  /-- Sent by the client and not read yet. -/
  pending : List UInt8
  /-- The client has shut down its side. -/
  eof : Bool
  /-- What has come back. -/
  echoed : List UInt8
  sent : List UInt8
  /-- What the reads from it returned, in order. -/
  reads : List (Option (List UInt8))
  /-- What the writes to it returned, in order. -/
  writes : List (Option Nat)
  deriving DecidableEq, Repr

namespace Stream

/-- Nothing has happened yet. -/
def empty : Stream := ⟨[], false, [], [], [], []⟩

/-- What has been read from it. -/
def taken (s : Stream) : List UInt8 := s.reads.flatMap fun ret => ret.getD []

/-- The kernel's part in a call of the callback `f` on this connection. A size that no `ssize_t`
can hold is refused. -/
def kernel (s : Stream) (f : Callback) : CallbackCall → Option Stream
  | .read none => some { s with reads := s.reads ++ [none] }
  | .read (some bs) =>
      if bs <+: s.pending ∧ (bs = [] → s.pending = [] ∧ s.eof = true) then
        some { s with pending := s.pending.drop bs.length, reads := s.reads ++ [some bs] }
      else none
  | .hexdump _ => some s
  | .write none => some { s with writes := s.writes ++ [none] }
  | .write (some m) =>
      if m ≤ f.size ∧ f.size < 2 ^ 63 then
        some { s with
          echoed := s.echoed ++ (List.range m).map f.rxBuffer
          writes := s.writes ++ [some m] }
      else none

end Stream

/-! ## Everything a call of the callback can do -/

/-- The calls with their outcomes, one constructor for each: what becomes of the callback and of
the connection. -/
inductive Callback.Step : Callback → Stream → CallbackCall → Callback → Stream → Prop
  | failed {f : Callback} {s : Stream} (hpc : f.pc = .reading) :
      Step f s (.read none) { f with pc := .dumping, rxBytes := -1 }
        { s with reads := s.reads ++ [none] }
  | read {f : Callback} {s : Stream} {bs : List UInt8} (hpc : f.pc = .reading)
      (hlen : bs.length ≤ rxSize) (hpre : bs <+: s.pending)
      (heof : bs = [] → s.pending = [] ∧ s.eof = true) :
      Step f s (.read (some bs))
        { f with
          pc := .dumping
          rxBytes := BitVec.ofNat 32 bs.length
          rxBuffer := stored f.rxBuffer bs }
        { s with pending := s.pending.drop bs.length, reads := s.reads ++ [some bs] }
  | hexdump {f : Callback} {s : Stream} {fuel : Nat} {out : List Char} (hpc : f.pc = .dumping)
      (hout : f.dumped rxDesc fuel = some out) :
      Step f s (.hexdump fuel) { f with pc := .writing } s
  | refused {f : Callback} {s : Stream} (hpc : f.pc = .writing) :
      Step f s (.write none) { f with pc := .done } { s with writes := s.writes ++ [none] }
  | write {f : Callback} {s : Stream} {m : Nat} (hpc : f.pc = .writing) (hm : m ≤ f.size)
      (hsize : f.size < 2 ^ 63) :
      Step f s (.write (some m)) { f with pc := .done }
        { s with
          echoed := s.echoed ++ (List.range m).map f.rxBuffer
          writes := s.writes ++ [some m] }

theorem Callback.step_cases {f f' : Callback} {s s' : Stream} {call : CallbackCall}
    (hf : serverConnectionCb f call = some f') (hs : s.kernel f call = some s') :
    Callback.Step f s call f' s' := by
  unfold serverConnectionCb at hf
  cases call with
  | read ret =>
      cases ret with
      | none =>
          simp only [Callback.step, Option.ite_none_right_eq_some, Option.some.injEq] at hf
          obtain ⟨hpc, rfl⟩ := hf
          cases hs
          exact .failed hpc
      | some bs =>
          simp only [Callback.step, Option.ite_none_right_eq_some, Option.some.injEq] at hf
          simp only [Stream.kernel, Option.ite_none_right_eq_some, Option.some.injEq] at hs
          obtain ⟨⟨hpc, hlen⟩, rfl⟩ := hf
          obtain ⟨⟨hpre, heof⟩, rfl⟩ := hs
          exact .read hpc hlen hpre heof
  | hexdump fuel =>
      simp only [Callback.step, Option.ite_none_right_eq_some, Option.some.injEq] at hf
      obtain ⟨⟨hpc, hsome⟩, rfl⟩ := hf
      obtain ⟨out, hout⟩ := Option.isSome_iff_exists.mp hsome
      cases hs
      exact .hexdump hpc hout
  | write m =>
      simp only [Callback.step, Option.ite_none_right_eq_some, Option.some.injEq] at hf
      obtain ⟨hpc, rfl⟩ := hf
      cases m with
      | none =>
          cases hs
          exact .refused hpc
      | some m =>
          simp only [Stream.kernel, Option.ite_none_right_eq_some, Option.some.injEq] at hs
          obtain ⟨⟨hm, hsize⟩, rfl⟩ := hs
          exact .write hpc hm hsize

/-- It stays on the descriptor it was called with. -/
theorem Callback.Step.conn {f f' : Callback} {s s' : Stream} {call : CallbackCall}
    (h : Callback.Step f s call f' s') : f'.conn = f.conn := by
  cases h <;> rfl

/-- The composed system, its clients, and the callback of each worker. -/
structure Echo (n : Nat) where
  world : World n
  stream : Conn → Stream
  callback : Fin n → Callback
  /-- What each worker's callbacks have printed. -/
  stdout : Fin n → List Char

/-- One action of it. -/
inductive EchoLabel (n : Nat) where
  | sys (l : Label n)
  | callback (i : Fin n) (c : CallbackCall)
  /-- Client `k` sends. -/
  | send (k : Conn) (bs : List UInt8)
  /-- Client `k` shuts down its side. -/
  | finish (k : Conn)
  deriving DecidableEq

/-- The actions of the system underneath. -/
def EchoLabel.sys? {n : Nat} : EchoLabel n → Option (Label n)
  | .sys l => some l
  | _ => none

namespace Echo

variable {n : Nat}

/-- Nobody has connected. The workers' stacks hold anything. -/
def start (c : Numbering n) (cmd : Fin n → UInt8) (mem : Fin n → Bytes.Buffer) : Echo n where
  world := World.start c cmd
  stream := fun _ => .empty
  callback := fun i => ⟨.done, -1, 0, mem i⟩
  stdout := fun _ => []

/-- Nothing keeps the system from taking this action: a worker that would come back from its
callback has got to the end of it. -/
def Ready (e : Echo n) : Label n → Prop
  | .worker i .callbackRet => (e.callback i).pc = .done
  | _ => True

instance (e : Echo n) : (l : Label n) → Decidable (e.Ready l)
  | .worker i .callbackRet => inferInstanceAs (Decidable ((e.callback i).pc = .done))
  | .worker _ .plumb | .worker _ (.ipcFdRead _) | .worker _ (.callback _) | .worker _ (.close _)
  | .worker _ (.write _) | .parent _ | .arrive | .die _ | .stderr .. => isTrue trivial

/-- The callbacks after an action of the system: one may have been entered. -/
def entered (e : Echo n) : Label n → Fin n → Callback
  | .worker i (.callback conn) => Function.update e.callback i ((e.callback i).enter conn)
  | _ => e.callback

/-- What a call of the callback `f` prints. -/
def printed (f : Callback) : CallbackCall → List Char
  | .hexdump fuel => (f.dumped rxDesc fuel).getD []
  | _ => []

/-- Replace the connection of client `k`. -/
def setStream (e : Echo n) (k : Conn) (s : Stream) : Echo n :=
  { e with stream := Function.update e.stream k s }

/-- One step. -/
def step (e : Echo n) : EchoLabel n → Option (Echo n)
  | .sys l =>
      if e.Ready l then
        (e.world.step l).map fun w => { e with world := w, callback := e.entered l }
      else none
  | .callback i call =>
      if (e.world.node i).proc.pc = .inCallback then
        match serverConnectionCb (e.callback i) call,
          (e.world.node i).fds.lookup (e.callback i).conn with
        | some f, some k =>
            ((e.stream k).kernel (e.callback i) call).map fun s =>
              { e.setStream k s with
                callback := Function.update e.callback i f
                stdout := Function.update e.stdout i
                  (e.stdout i ++ printed (e.callback i) call) }
        | _, _ => none
      else none
  | .send k bs =>
      if k < e.world.arrivals ∧ (e.stream k).eof = false then
        some (e.setStream k { e.stream k with
          pending := (e.stream k).pending ++ bs
          sent := (e.stream k).sent ++ bs })
      else none
  | .finish k =>
      if k < e.world.arrivals then some (e.setStream k { e.stream k with eof := true }) else none

/-- The echo service for one numbering of the descriptors. -/
def lts (c : Numbering n) : Lts (Echo n) (EchoLabel n) where
  init e := ∃ cmd mem, e = start c cmd mem
  step := step

/-! ## Taking a step apart -/

theorem step_sys {e e' : Echo n} {l : Label n} (h : e.step (.sys l) = some e') :
    e.Ready l ∧ e.world.step l = some e'.world ∧ e'.stream = e.stream
      ∧ e'.callback = e.entered l ∧ e'.stdout = e.stdout := by
  simp only [step, Option.ite_none_right_eq_some, Option.map_eq_some_iff] at h
  obtain ⟨hready, w, hw, rfl⟩ := h
  exact ⟨hready, hw, rfl, rfl, rfl⟩

theorem step_callback {e e' : Echo n} {i : Fin n} {call : CallbackCall}
    (h : e.step (.callback i call) = some e') :
    (e.world.node i).proc.pc = .inCallback ∧ ∃ f k s,
      (e.world.node i).fds.lookup (e.callback i).conn = some k
        ∧ Callback.Step (e.callback i) (e.stream k) call f s
        ∧ e' = { e.setStream k s with
            callback := Function.update e.callback i f
            stdout := Function.update e.stdout i (e.stdout i ++ printed (e.callback i) call) } := by
  simp only [step, Option.ite_none_right_eq_some] at h
  obtain ⟨hpc, h⟩ := h
  split at h
  · rename_i f k hf hk
    obtain ⟨s, hs, rfl⟩ := Option.map_eq_some_iff.mp h
    exact ⟨hpc, f, k, s, hk, Callback.step_cases hf hs, rfl⟩
  · exact absurd h (by simp)

theorem step_send {e e' : Echo n} {k : Conn} {bs : List UInt8}
    (h : e.step (.send k bs) = some e') :
    k < e.world.arrivals ∧ e' = e.setStream k { e.stream k with
      pending := (e.stream k).pending ++ bs
      sent := (e.stream k).sent ++ bs } := by
  simp only [step, Option.ite_none_right_eq_some, Option.some.injEq] at h
  obtain ⟨⟨hk, _⟩, rfl⟩ := h
  exact ⟨hk, rfl⟩

theorem step_finish {e e' : Echo n} {k : Conn} (h : e.step (.finish k) = some e') :
    k < e.world.arrivals ∧ e' = e.setStream k { e.stream k with eof := true } := by
  simp only [step, Option.ite_none_right_eq_some, Option.some.injEq] at h
  obtain ⟨hk, rfl⟩ := h
  exact ⟨hk, rfl⟩

/-- **The system underneath is the composed system.** -/
theorem projects (c : Numbering n) : Lts.Projects (lts c) (World.lts c) world EchoLabel.sys? where
  shown := by
    intro e l e' l' hs hl
    cases l with
    | sys l =>
        cases hl
        exact (step_sys hs).2.1
    | callback i call | send k bs | finish k => cases hl
  hidden := by
    intro e l e' hs hl
    cases l with
    | sys l => cases hl
    | callback i call =>
        obtain ⟨_, f, k, s, _, _, rfl⟩ := step_callback hs
        rfl
    | send k bs =>
        obtain ⟨_, rfl⟩ := step_send hs
        rfl
    | finish k =>
        obtain ⟨_, rfl⟩ := step_finish hs
        rfl

end Echo

end TcpServer
