import TcpServer.Proof.Apart
import TcpServer.Proof.Drain

/-!
# What comes back is what was sent

Many clients talk to the server at once, and its workers answer them at the same
time, all through callbacks of their own. No byte gets from one client to another:
what a client has got back is the front of what was read from its own connection,
and that is the front of what it sent.

The reason is that a worker's callback has its connection to itself, because the
parent hands each connection to one worker, once (`Inv.exclusive`). `EchoInv` is what
that leaves true of all connections together, `stdout` included.
-/

namespace TcpServer.Proof

open TcpServer World

variable {n : Nat} {c : Numbering n} {w w' : World n}

/-! ## Whose callback runs on what -/

/-- The callbacks that were started are those that have returned and the one that runs. -/
theorem Phase.started_eq {stop : Bool} {sent : List Conn} {status : Int} {nd : Node}
    (h : Phase stop sent status nd) :
    nd.log.started = nd.log.returned ++ ((engaged nd).map Prod.snd).toList := by
  cases h with
  | idle hp | queued hp => simp [engaged, hp.not_busy.2.1]
  | running hp => simp [engaged, hp]
  | received hp | returned hp | closed hp | reported hp | exited _ hp | exitedReported _ hp =>
      simp [engaged, hp]

/-- A worker about to enter its callback, or in it, has one connection. -/
theorem Phase.fds_eq {stop : Bool} {sent : List Conn} {status : Int} {nd : Node}
    (h : Phase stop sent status nd) (hpc : nd.proc.pc = .serving ∨ nd.proc.pc = .inCallback) :
    ∃ k, nd.fds = [(nd.proc.conn, k)] := by
  cases h with
  | @received p done k hp => exact ⟨k, rfl⟩
  | @running p done k hp => exact ⟨k, rfl⟩
  | idle hp | queued hp => exact absurd hpc (not_or.mpr ⟨hp.not_busy.1, hp.not_busy.2.1⟩)
  | returned hp | closed hp | reported hp | exited _ hp | exitedReported _ hp =>
      exact absurd hpc (by simp [hp])

theorem Phase.engaged_eq {stop : Bool} {sent : List Conn} {status : Int} {nd : Node}
    (h : Phase stop sent status nd) (hpc : nd.proc.pc = .inCallback) :
    ∃ k, nd.fds = [(nd.proc.conn, k)] ∧ engaged nd = some (nd.proc.conn, k) := by
  obtain ⟨k, hfds⟩ := h.fds_eq (.inr hpc)
  exact ⟨k, hfds, engaged_of_fds hpc hfds⟩

/-! ## A connection of its own -/

/-- No connection is handed out twice. -/
theorem Inv.submitted_nodup (h : Inv c w) : (w.submitted.map Prod.fst).Nodup := by
  have hnd := h.accepted_nodup
  rcases h.parent_holds with ⟨_, hsub, _⟩ | ⟨_, k, _, hacc, hsub | hsub⟩
  · rw [hsub]
    exact hnd
  · rw [hacc] at hnd
    rw [hsub]
    exact hnd.of_append_left
  · rw [hsub]
    exact hnd

/-- So no connection has two callbacks. -/
theorem Inv.exclusive (h : Inv c w) : Exclusive w :=
  exclusive_of_submitted (fun i => (h.phase i).fds_eq)
    (fun i => by rw [(h.phase i).started_eq]) (fun i => (h.phase i).started_sent)
    h.submitted_nodup

/-- **Without faults no callback is cut short.** -/
theorem callStep (h : Inv c w) {l : Label n} (hok : FaultFree w l) (hs : w.step l = some w')
    (i : Fin n) : CallStep i l (w.node i) (w'.node i) := by
  cases h.exclusive.cut hs i with
  | call hcall => exact hcall
  | cut _ _ _ => cases hok

theorem Inv.mem_started (h : Inv c w) {i : Fin n} {k : Conn} :
    k ∈ (w.node i).log.started ↔
      k ∈ (w.node i).log.returned ∨ ∃ conn, engaged (w.node i) = some (conn, k) := by
  rw [(h.phase i).started_eq, List.mem_append]
  refine or_congr Iff.rfl ?_
  cases engaged (w.node i) with
  | none => simp
  | some e =>
      obtain ⟨conn, k'⟩ := e
      simp [eq_comm]

/-! ## The invariant -/

/-- What the callbacks of worker `i` have to have printed: a page for each connection it is done
with, and what the one that runs has got to. -/
def told (e : Echo n) (i : Fin n) : List Char :=
  (e.world.node i).log.returned.flatMap (fun k => page (e.stream k).taken)
    ++ ((engaged (e.world.node i)).map fun d => shown (e.callback i) (e.stream d.2)).getD []

/-- What every client has got, and every worker has printed. -/
structure EchoInv (e : Echo n) : Prop where
  /-- What a client sent has been read or waits to be. -/
  sent : ∀ k, (e.stream k).sent = (e.stream k).taken ++ (e.stream k).pending
  /-- Only a callback touches a connection. -/
  untouched : ∀ k, (∀ i, k ∉ (e.world.node i).log.started) → Untouched (e.stream k)
  /-- A callback that has returned has been through. -/
  finished : ∀ i, ∀ k ∈ (e.world.node i).log.returned, Answered (e.stream k)
  /-- One that runs has got to where it is. -/
  running : ∀ i conn k, engaged (e.world.node i) = some (conn, k) →
    (e.callback i).conn = conn ∧ Stage (e.callback i) (e.stream k)
  stdout : ∀ i, e.stdout i = told e i

section Steps

variable {e e' : Echo n}

theorem echoInv_start (cmd : Fin n → UInt8) (mem : Fin n → Bytes.Buffer) :
    EchoInv (Echo.start c cmd mem) where
  sent := fun _ => rfl
  untouched := fun _ _ => ⟨rfl, rfl, rfl⟩
  finished := fun _ _ hk => absurd hk (by simp [Echo.start, World.start, Node.start])
  running := by
    intro i conn k h
    exact absurd (inCallback_of_engaged h)
      (by simp [Echo.start, World.start, Node.start, WorkerProc.start])
  stdout := fun _ => rfl

theorem EchoInv.apart (he : EchoInv e) : Apart e :=
  ⟨he.sent, he.untouched, he.finished, he.running⟩

/-- The invariant from its two halves. -/
theorem Apart.echoInv (ha : Apart e) (hstdout : ∀ i, e.stdout i = told e i) : EchoInv e :=
  ⟨ha.sent, ha.untouched, ha.finished, ha.running, hstdout⟩

theorem echoInv_sys {l : Label n} (h : Inv c e.world) (he : EchoInv e)
    (hok : FaultFree e.world l) (hs : e.step (.sys l) = some e') : EchoInv e' := by
  obtain ⟨hready, hw, hstream, hcallback, hstdout⟩ := Echo.step_sys hs
  have hcall := callStep h hok hw
  have h' := inv_step h hok hw
  refine (apart_sys h.exclusive h'.exclusive he.apart hs).echoInv ?_
  intro i
  have hi := he.stdout i
  rw [hstdout, hi, told, told, hstream, hcallback]
  cases hcall i with
  | enter hnone hsome _ hreturned =>
      rw [hnone, hsome, hreturned]
      simp [Echo.entered, Callback.enter, shown]
  | leave hsome hnone _ hreturned =>
      have hdone : (e.callback i).pc = .done := hready
      rw [hsome, hnone, hreturned]
      simp [shown, hdone]
  | same henter _ hengaged _ hreturned => rw [hengaged, hreturned, entered_same henter]

theorem echoInv_callback {i : Fin n} {call : CallbackCall} (h : Inv c e.world) (he : EchoInv e)
    (hs : e.step (.callback i call) = some e') : EchoInv e' := by
  refine (apart_callback h.exclusive he.apart hs).echoInv ?_
  obtain ⟨hpc, f, k, s, hk, hstep, rfl⟩ := Echo.step_callback hs
  have hengaged := he.apart.engaged_of_lookup h.exclusive hpc hk
  obtain ⟨_, hstage⟩ := he.running i _ k hengaged
  obtain ⟨hover, halone⟩ := h.exclusive.alone hengaged
  have hsame : ∀ k', k' ≠ k → (e.setStream k s).stream k' = e.stream k' := fun k' hne =>
    Function.update_of_ne hne _ _
  have hself : (e.setStream k s).stream k = s := Function.update_self k _ _
  -- the pages of the connections that are over are what they were
  have hpages : ∀ j, (e.world.node j).log.returned.flatMap
        (fun k' => page ((e.setStream k s).stream k').taken)
      = (e.world.node j).log.returned.flatMap fun k' => page (e.stream k').taken := by
    intro j
    refine List.flatMap_congr fun k' hk' => ?_
    rw [hsame k' fun heq => hover j (heq ▸ hk')]
  intro j
  show Function.update e.stdout i _ j = (e.world.node j).log.returned.flatMap
      (fun k' => page ((e.setStream k s).stream k').taken)
    ++ ((engaged (e.world.node j)).map fun d =>
        shown (Function.update e.callback i f j) ((e.setStream k s).stream d.2)).getD []
  rw [hpages j]
  by_cases hji : j = i
  · subst hji
    rw [Function.update_self, Function.update_self, he.stdout j, told, hengaged]
    simp only [Option.map_some, Option.getD_some, hself, shown_step hstage hstep,
      List.append_assoc]
  · rw [Function.update_of_ne hji, Function.update_of_ne hji, he.stdout j, told]
    congr 1
    cases hj : engaged (e.world.node j) with
    | none => rfl
    | some d =>
        obtain ⟨conn', k'⟩ := d
        simp only [Option.map_some, Option.getD_some]
        rw [hsame k' fun heq => hji (halone j conn' (heq ▸ hj))]

/-- What a client does prints nothing. -/
theorem echoInv_client {k : Conn} {s : Stream} (he : EchoInv e) (hlater : Later (e.stream k) s)
    (ha : Apart (e.setStream k s)) : EchoInv (e.setStream k s) := by
  refine ha.echoInv fun i => ?_
  have hi := he.stdout i
  rw [told] at hi
  show e.stdout i = (e.world.node i).log.returned.flatMap
      (fun k' => page ((e.setStream k s).stream k').taken)
    ++ ((engaged (e.world.node i)).map fun d =>
        shown (e.callback i) ((e.setStream k s).stream d.2)).getD []
  simp only [(later_setStream hlater _).taken_eq,
    fun k' => shown_later (e.callback i) (later_setStream hlater k')]
  exact hi

end Steps

/-! ## Every run -/

/-- The action is not a fault of the system. Callbacks' calls may fail, and clients do as they
like. -/
def EchoFaultFree (e : Echo n) : EchoLabel n → Prop
  | .sys l => FaultFree e.world l
  | _ => True

instance (e : Echo n) : (l : EchoLabel n) → Decidable (EchoFaultFree e l)
  | .sys l => inferInstanceAs (Decidable (FaultFree e.world l))
  | .callback .. | .send .. | .finish _ => isTrue trivial

theorem echoInv_step {e e' : Echo n} {l : EchoLabel n} (h : Inv c e.world ∧ EchoInv e)
    (hok : EchoFaultFree e l) (hs : e.step l = some e') : Inv c e'.world ∧ EchoInv e' := by
  obtain ⟨hi, he⟩ := h
  cases l with
  | sys l => exact ⟨inv_step hi hok (Echo.step_sys hs).2.1, echoInv_sys hi he hok hs⟩
  | callback i call =>
      refine ⟨?_, echoInv_callback hi he hs⟩
      obtain ⟨_, f, k, s, _, _, rfl⟩ := Echo.step_callback hs
      exact hi
  | send k bs =>
      have ha := apart_send he.apart hs
      obtain ⟨_, rfl⟩ := Echo.step_send hs
      exact ⟨hi, echoInv_client he ⟨rfl, rfl, rfl, id⟩ ha⟩
  | finish k =>
      have ha := apart_finish he.apart hs
      obtain ⟨_, rfl⟩ := Echo.step_finish hs
      exact ⟨hi, echoInv_client he ⟨rfl, rfl, rfl, fun _ => rfl⟩ ha⟩

theorem echoInv_reachable {e : Echo n} (h : (Echo.lts c).Reachable EchoFaultFree e) :
    Inv c e.world ∧ EchoInv e := by
  refine h.invariant ?_ echoInv_step
  rintro s ⟨cmd, mem, rfl⟩
  exact ⟨inv_init c cmd, echoInv_start cmd mem⟩

/-- The system underneath has made a run of its own. -/
theorem world_reachable {e : Echo n} (h : (Echo.lts c).Reachable EchoFaultFree e) :
    (World.lts c).Reachable FaultFree e.world := by
  obtain ⟨s, ls, ⟨cmd, mem, rfl⟩, hrun⟩ := h
  refine ⟨World.start c cmd, _, ⟨cmd, rfl⟩, hrun.project (Echo.projects c) ?_⟩
  intro e l l' hok hl
  cases l with
  | sys l => cases hl; exact hok
  | callback i call | send k bs | finish k => cases hl

/-! ## What a client gets -/

/--
**No client ever gets a byte of another's.**

What has come back to a client is the front of what one `read` took from it, and
so of what it sent. A client whose callback has not been started has got nothing,
and one whose callback is over has had one `read` and one `write`, and has got back
as much as the `write` took.
-/
theorem echoes_own_bytes (c : Numbering n) {e : Echo n}
    (h : (Echo.lts c).Reachable EchoFaultFree e) (k : Conn) :
    OwnBytes (e.stream k)
      ∧ ((∀ i, k ∉ (e.world.node i).log.started) → Untouched (e.stream k))
      ∧ ∀ i, k ∈ (e.world.node i).log.returned → Answered (e.stream k) := by
  obtain ⟨hi, he⟩ := echoInv_reachable h
  refine ⟨?_, he.untouched k, fun i => he.finished i k⟩
  by_cases hstarted : ∃ i, k ∈ (e.world.node i).log.started
  · obtain ⟨i, hk⟩ := hstarted
    rcases hi.mem_started.mp hk with hover | ⟨conn, hengaged⟩
    · exact (he.finished i k hover).ownBytes (he.sent k)
    · exact (he.running i conn k hengaged).2.ownBytes (he.sent k)
  · exact (he.untouched k (not_exists.mp hstarted)).ownBytes

/-- A client arrives, is accepted, and its connection handed to worker `i`, which enters its
callback. -/
def engage (i : Fin 2) : List (EchoLabel 2) :=
  [.sys (.parent .select), .sys .arrive, .sys (.parent (.selectRet (some {3}))),
    .sys (.parent .tau), .sys (.parent (.accept 20)), .sys (.parent (.sendmsg i cmdConn 20 .ok)),
    .sys (.parent (.close 20)), .sys (.worker i .plumb),
    .sys (.worker i (.ipcFdRead (.got cmdConn 0))), .sys (.worker i (.callback 0))]

/-- Two clients send three bytes and one, and are read from and answered in turns. -/
def twoClients : List (EchoLabel 2) :=
  .sys (.parent .tau) :: engage firstWorker ++ engage secondWorker ++
    [.send 0 [65, 66, 67], .send 1 [90], .callback firstWorker (.read (some [65, 66, 67])),
      .callback secondWorker (.read (some [90])), .callback firstWorker (.hexdump 17),
      .callback secondWorker (.hexdump 17), .callback secondWorker (.write (some 1)),
      .callback firstWorker (.write (some 2))]

theorem echoes_own_bytes_twoClients :
    ∃ e, (Echo.lts .twoWorkers).Reachable EchoFaultFree e ∧
      ((e.stream 0).echoed = [65, 66] ∧ (e.stream 1).echoed = [90]) ∧ OwnBytes (e.stream 0) := by
  obtain ⟨e, hrun, hechoed⟩ : ∃ e, (Echo.lts .twoWorkers).Run EchoFaultFree
      (Echo.start .twoWorkers (fun _ => 0) fun _ _ => 0) twoClients e ∧
        (e.stream 0).echoed = [65, 66] ∧ (e.stream 1).echoed = [90] :=
    Lts.exists_run_of_exec (by decide +kernel)
  have hr : (Echo.lts .twoWorkers).Reachable EchoFaultFree e := ⟨_, _, ⟨_, _, rfl⟩, hrun⟩
  exact ⟨e, hr, hechoed, (echoes_own_bytes .twoWorkers hr 0).1⟩

/-- Callbacks are started for accepted connections. -/
theorem Inv.accepted_of_started (h : Inv c w) {i : Fin n} {k : Conn}
    (hk : k ∈ (w.node i).log.started) : k ∈ w.accepted := by
  have hsent : (k, i) ∈ w.submitted :=
    (abs w).mem_assignedTo.mp ((h.phase i).started_sent.subset hk)
  have hmem : k ∈ w.submitted.map Prod.fst := List.mem_map.mpr ⟨(k, i), hsent, rfl⟩
  rcases h.parent_holds with ⟨_, hsub, _⟩ | ⟨_, k', _, hacc, hsub | hsub⟩
  · rwa [hsub] at hmem
  · rw [hsub] at hmem
    rw [hacc]
    exact List.mem_append_left _ hmem
  · rwa [hsub] at hmem

/--
**When the server has shut down, every client has been answered or left alone.**

Those it accepted have each had one `read` and one `write`, however far shutdown
had got when they were served, if no worker has died. Nothing was ever read from the
others or written to them.
-/
theorem answered_at_shutdown (c : Numbering n) {e : Echo n}
    (h : (Echo.lts c).Reachable EchoFaultFree e) (hpc : e.world.parent.pc = .returned) (k : Conn) :
    (k ∈ e.world.accepted → Answered (e.stream k))
      ∧ (k ∉ e.world.accepted → Untouched (e.stream k)) := by
  obtain ⟨hi, he⟩ := echoInv_reachable h
  have hdrained := hi.drained (abs_sound (world_reachable h)) hpc
  refine ⟨?_, ?_⟩
  · intro hk
    obtain ⟨i, _, hreturned, _⟩ := hdrained.served k hk
    exact he.finished i k (List.count_pos_iff.mp (by omega))
  · intro hk
    exact he.untouched k fun i hstarted => hk (hi.accepted_of_started hstarted)

/-- `SIGINT` arrives while the only worker waits for its client to send something. -/
def callbackInterrupted : List (Label 1) :=
  handOver ++ [.parent (.close 5), .worker solo .plumb,
    .worker solo (.ipcFdRead (.got cmdConn 0)), .worker solo (.callback 0), .parent .select,
    .parent .sigint, .arrive, .parent .tau, .parent (.write solo cmdStop .ok)]

/-- The worker ends and is collected. -/
def callbackEnds : List (Label 1) :=
  [.worker solo .callbackRet, .worker solo (.close 0), .worker solo (.write cmdDone),
    .worker solo (.ipcFdRead (.got cmdStop (-1))), .parent .tau, .parent (.wait (some solo)),
    .parent (.wait none)]

/-- The client sends two bytes in between. -/
def interruptedEcho : List (EchoLabel 1) :=
  callbackInterrupted.map .sys ++
    [.send 0 [72, 105], .callback solo (.read (some [72, 105])), .callback solo (.hexdump 17),
      .callback solo (.write (some 2))] ++
    callbackEnds.map .sys

theorem answered_at_shutdown_interruptedEcho :
    ∃ e, (Echo.lts .oneWorker).Reachable EchoFaultFree e ∧
      (e.world.accepted = [0] ∧ (e.stream 0).echoed = [72, 105]) ∧ Answered (e.stream 0)
        ∧ Untouched (e.stream 1) := by
  obtain ⟨e, hrun, hpc, hacc, hechoed⟩ : ∃ e, (Echo.lts .oneWorker).Run EchoFaultFree
      (Echo.start .oneWorker (fun _ => 0) fun _ _ => 0) interruptedEcho e ∧
        e.world.parent.pc = .returned ∧ e.world.accepted = [0] ∧ (e.stream 0).echoed = [72, 105] :=
    Lts.exists_run_of_exec (by decide +kernel)
  have hr : (Echo.lts .oneWorker).Reachable EchoFaultFree e := ⟨_, _, ⟨_, _, rfl⟩, hrun⟩
  exact ⟨e, hr, ⟨hacc, hechoed⟩, (answered_at_shutdown .oneWorker hr hpc 0).1 (by simp [hacc]),
    (answered_at_shutdown .oneWorker hr hpc 1).2 (by simp [hacc])⟩

/-! ## What the callbacks print -/

/-- **A worker's callbacks have printed whole pages**, one for each of the connections it has begun,
in order and up to the current one at most. -/
theorem EchoInv.pages {e : Echo n} (he : EchoInv e) (hi : Inv c e.world) (i : Fin n) :
    ∃ ks, (e.world.node i).log.returned <+: ks ∧ ks <+: (e.world.node i).log.started
      ∧ unpage (e.stdout i) = ks.map fun k => (e.stream k).taken := by
  have hpages : ∀ ks : List Conn, ks.flatMap (fun k => page (e.stream k).taken)
      = (ks.map fun k => (e.stream k).taken).flatMap page := fun ks => by rw [List.flatMap_map]
  have hstarted := (hi.phase i).started_eq
  have hstdout := he.stdout i
  rw [told] at hstdout
  cases hengaged : engaged (e.world.node i) with
  | none =>
      rw [hengaged] at hstarted hstdout
      refine ⟨(e.world.node i).log.returned, List.prefix_rfl, ?_, ?_⟩
      · rw [hstarted]
        exact List.prefix_append _ _
      · rw [hstdout, Option.map_none, Option.getD_none, List.append_nil, hpages, unpage_pages]
  | some d =>
      obtain ⟨conn, k⟩ := d
      rw [hengaged] at hstarted hstdout
      -- the callback that runs has printed its page or nothing
      have hshown : shown (e.callback i) (e.stream k) = []
          ∨ shown (e.callback i) (e.stream k) = page (e.stream k).taken := by
        unfold shown
        cases (e.callback i).pc with
        | reading | dumping => exact .inl rfl
        | writing | done => exact .inr rfl
      rw [Option.map_some, Option.getD_some] at hstdout
      rcases hshown with hnothing | hpage
      · refine ⟨(e.world.node i).log.returned, List.prefix_rfl, ?_, ?_⟩
        · rw [hstarted]
          exact List.prefix_append _ _
        · rw [hstdout, hnothing, List.append_nil, hpages, unpage_pages]
      · refine ⟨(e.world.node i).log.started, ?_, List.prefix_rfl, ?_⟩
        · rw [hstarted]
          exact List.prefix_append _ _
        · rw [hstdout, hpage, hstarted, Option.map_some, Option.toList_some, hpages,
            List.map_append, List.map_singleton]
          have hone := unpage_pages
            (((e.world.node i).log.returned.map fun k => (e.stream k).taken) ++
              [(e.stream k).taken])
          rw [List.flatMap_append, List.flatMap_singleton] at hone
          exact hone

end TcpServer.Proof
