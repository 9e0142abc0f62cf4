import TcpServer.Proof.Agreement

/-!
# What the parent's books say about the workers

`Inv` read from the parent's side, for as long as the server loop runs. A status
of `0` is a promise: that worker can be handed a connection, because it has none
and nothing is on its way to or from it. A status of `1` accounts for exactly one
connection, which is on its way to the worker, or with it, or done with and only
its completion not read yet.
-/

namespace TcpServer.Proof

open TcpServer World

variable {n : Nat}

/-- The server loop has been left for `worker_pool_workers_terminate`. -/
def stopping : Pc n → Bool
  | .terminating _ => true
  | .waiting => true
  | .returned => true
  | _ => false

/-- Nothing to do, nothing on its way. -/
structure Idle (nd : Node) : Prop where
  waiting : Waiting nd.proc
  fds : nd.fds = []
  inbox : nd.inbox = []
  outbox : nd.outbox = []

/-- One `'p'` with its descriptor is on its way to the worker, and nothing else. -/
structure InFlight (nd : Node) (c : Conn) : Prop where
  waiting : Waiting nd.proc
  fds : nd.fds = []
  inbox : nd.inbox = [⟨cmdConn, some c⟩]
  outbox : nd.outbox = []

/-- The worker is between receiving `c` and writing its completion. -/
structure Processing (nd : Node) (c : Conn) : Prop where
  received : nd.log.received.getLast? = some c
  inbox : nd.inbox = []
  outbox : nd.outbox = []
  holds :
    (nd.proc.pc = .serving ∨ nd.proc.pc = .inCallback ∨ nd.proc.pc = .closing)
        ∧ nd.fds = [(nd.proc.conn, c)]
      ∨ nd.proc.pc = .reporting ∧ nd.fds = []

/-- The worker is done with `c`; the one completion byte has not been read. -/
structure Completed (nd : Node) (c : Conn) : Prop where
  waiting : Waiting nd.proc
  closed : nd.log.closed.getLast? = some c
  fds : nd.fds = []
  inbox : nd.inbox = []
  outbox : nd.outbox = [cmdDone]

/-- One of the three holds and the other two do not. -/
def ExactlyOne (p q r : Prop) : Prop := p ∧ ¬ q ∧ ¬ r ∨ ¬ p ∧ q ∧ ¬ r ∨ ¬ p ∧ ¬ q ∧ r

/-- The parent's counter and statuses describe the workers. -/
structure BooksAgree (w : World n) : Prop where
  avail : w.parent.self.wp.availWorkersN = w.parent.self.wp.readyCount
  bounds : 0 ≤ w.parent.self.wp.availWorkersN ∧ w.parent.self.wp.availWorkersN ≤ n
  status : ∀ i, (w.worker i).status = 0 ∨ (w.worker i).status = 1
  ready : ∀ i, (w.worker i).status = 0 → Idle (w.node i)
  busy : ∀ i, (w.worker i).status = 1 →
    ∃ c, (w.sentTo i).getLast? = some c ∧
      ExactlyOne (InFlight (w.node i) c) (Processing (w.node i) c) (Completed (w.node i) c)

theorem stopSent_of_not_stopping {pc : Pc n} (h : stopping pc = false) (i : Fin n) :
    stopSent pc i = false := by
  cases pc with
  | terminating is | waiting | returned => cases h
  | _ => rfl

/-! ## The three phases of a busy worker exclude one another -/

theorem InFlight.exactlyOne {nd : Node} {c : Conn} (h : InFlight nd c) :
    ExactlyOne (InFlight nd c) (Processing nd c) (Completed nd c) := by
  refine .inl ⟨h, ?_, ?_⟩
  · intro hp
    have hin := hp.inbox
    rw [h.inbox] at hin
    cases hin
  · intro hc
    have hin := hc.inbox
    rw [h.inbox] at hin
    cases hin

theorem Completed.exactlyOne {nd : Node} {c : Conn} (h : Completed nd c) :
    ExactlyOne (InFlight nd c) (Processing nd c) (Completed nd c) := by
  refine .inr (.inr ⟨?_, ?_, h⟩)
  · intro hf
    have hout := hf.outbox
    rw [h.outbox] at hout
    cases hout
  · intro hp
    have hout := hp.outbox
    rw [h.outbox] at hout
    cases hout

theorem Processing.exactlyOne {nd : Node} {c : Conn} (h : Processing nd c) :
    ExactlyOne (InFlight nd c) (Processing nd c) (Completed nd c) := by
  refine .inr (.inl ⟨?_, h, ?_⟩)
  · intro hf
    have hin := hf.inbox
    rw [h.inbox] at hin
    cases hin
  · intro hc
    have hout := hc.outbox
    rw [h.outbox] at hout
    cases hout

/-! ## Reading the phase off -/

theorem Phase.status_eq {stop : Bool} {sent : List Conn} {status : Int} {nd : Node}
    (h : Phase stop sent status nd) : status = 0 ∨ status = 1 := by
  cases h with
  | idle hp => exact .inl rfl
  | exited hstop hp => exact .inl rfl
  | _ => exact .inr rfl

theorem Phase.ready {sent : List Conn} {nd : Node} (h : Phase false sent 0 nd) : Idle nd := by
  obtain ⟨p, hp, rfl⟩ := h.idle_of_ready
  exact ⟨hp, rfl, rfl, rfl⟩

theorem Phase.busy {sent : List Conn} {nd : Node} (h : Phase false sent 1 nd) :
    ∃ c, sent.getLast? = some c ∧
      ExactlyOne (InFlight nd c) (Processing nd c) (Completed nd c) := by
  cases h with
  | @queued p done c hp =>
      exact ⟨c, by simp, InFlight.exactlyOne ⟨hp, rfl, rfl, rfl⟩⟩
  | @received p done c hp =>
      exact ⟨c, by simp, Processing.exactlyOne ⟨by simp, rfl, rfl, .inl ⟨.inl hp, rfl⟩⟩⟩
  | @running p done c hp =>
      exact ⟨c, by simp, Processing.exactlyOne ⟨by simp, rfl, rfl, .inl ⟨.inr (.inl hp), rfl⟩⟩⟩
  | @returned p done c hp =>
      exact ⟨c, by simp, Processing.exactlyOne ⟨by simp, rfl, rfl, .inl ⟨.inr (.inr hp), rfl⟩⟩⟩
  | @closed p done c hp =>
      exact ⟨c, by simp, Processing.exactlyOne ⟨by simp, rfl, rfl, .inr ⟨hp, rfl⟩⟩⟩
  | @reported p done c hp =>
      exact ⟨c, by simp, Completed.exactlyOne ⟨.inr hp, by simp, rfl, rfl, rfl⟩⟩
  | exitedReported hstop hp => exact absurd hstop (by simp)

/-- What the invariant says while the server loop runs. -/
theorem Inv.booksAgree {c : Numbering n} {w : World n} (h : Inv c w)
    (hpc : stopping w.parent.pc = false) : BooksAgree w := by
  have hphase : ∀ i, Phase false (w.sentTo i) (w.worker i).status (w.node i) := by
    intro i
    have hi := h.phase i
    rw [stopSent_of_not_stopping hpc i] at hi
    exact hi
  have hle := w.parent.self.wp.readyCount_le
  have havail := h.avail
  exact
    { avail := havail
      bounds := by omega
      status := fun i => (hphase i).status_eq
      ready := by
        intro i hi
        have hp := hphase i
        rw [hi] at hp
        exact hp.ready
      busy := by
        intro i hi
        have hp := hphase i
        rw [hi] at hp
        exact hp.busy }

/--
**The parent's books agree with what the workers do.**

In every state of a run without faults, for any number of workers and any
interleaving, until the server loop is left.
-/
theorem books_agree (c : Numbering n) {w : World n}
    (h : (World.lts c).Reachable FaultFree w) (hpc : stopping w.parent.pc = false) : BooksAgree w :=
  (inv_reachable h).booksAgree hpc

/-- A client arrives and is handed to the only worker. -/
def handOver : List (Label 1) :=
  [.parent .tau, .parent .select, .arrive, .parent (.selectRet (some {3})), .parent .tau,
    .parent (.accept 5), .parent (.sendmsg solo cmdConn 5 .ok)]

theorem books_agree_handOver :
    ∃ w, (World.lts .oneWorker).Reachable FaultFree w ∧ (w.worker 0).status = 1 ∧ BooksAgree w := by
  obtain ⟨w, hrun, hbusy, hpc⟩ : ∃ w,
      (World.lts .oneWorker).Run FaultFree (World.start .oneWorker fun _ => 0) handOver w ∧
        (w.worker 0).status = 1 ∧ stopping w.parent.pc = false :=
    Lts.exists_run_of_exec (by decide +kernel)
  have hr : (World.lts .oneWorker).Reachable FaultFree w := ⟨_, handOver, ⟨_, rfl⟩, hrun⟩
  exact ⟨w, hr, hbusy, books_agree .oneWorker hr hpc⟩

end TcpServer.Proof
