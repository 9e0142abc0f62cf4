import TcpServer.Proof.Echo

/-!
# What no fault can bring about

A worker may die at any moment, and whatever runs in one may write to its descriptor
2, which is its end of the channel. The parent takes each byte it reads for a
completion, so it comes to believe that busy workers are ready, hands them more
connections than they can serve, and in the end runs past its array or writes to a
channel without a reader. None of what `Phase` says about its books is left.

What is left is order. Connections wait in a channel one behind the other, and a
worker takes them one at a time, so `Rough` lists the few shapes it can have with
any number of messages before it and anything behind it. The parent holds one
connection at most (`Hands`), whatever it believes. Together they still hand every
connection over once at most (`handed_on_in_order`), and that is all that `Exclusive`
asks for: no client gets a byte of another's, whichever workers die.
-/

namespace TcpServer.Proof

open TcpServer World

variable {n : Nat} {c : Numbering n} {w w' : World n}

/-! ## One worker -/

/-- The connections that wait in a channel. -/
def waitingIn (ms : List Msg) : List Conn := ms.filterMap Msg.file

theorem waitingIn_append (ms : List Msg) (m : Msg) :
    waitingIn (ms ++ [m]) = waitingIn ms ++ m.file.toList := by
  rw [waitingIn, waitingIn, List.filterMap_append]
  cases hm : m.file with
  | none => simp [hm]
  | some k => simp [hm]

/-- The two kinds of message that the parent sends. -/
def Sendable (m : Msg) : Prop := m = ⟨cmdStop, none⟩ ∨ ∃ k, m = ⟨cmdConn, some k⟩

/-- A worker's record is in the order in which it was handed its connections. -/
structure InOrder (sent : List Conn) (log : Log) : Prop where
  received : log.received <+: sent
  started : log.started <+: log.received
  returned : log.returned <+: log.started
  closed : log.closed <+: log.returned

/-- It started callbacks for some of those it was handed, the first of them. -/
theorem InOrder.started_sent {sent : List Conn} {log : Log} (h : InOrder sent log) :
    log.started <+: sent := h.started.trans h.received

/-- The shapes a worker and its channel can have, whatever the parent believes. -/
inductive Rough (sent : List Conn) : Node → Prop
  /-- It is done with all it has received, but may have to report the last. -/
  | idle {p : WorkerProc} {inbox : List Msg} {outbox : List UInt8} {reaped : Bool}
      {done : List Conn} (hp : Waiting p ∨ p.pc = .reporting) (hin : ∀ m ∈ inbox, Sendable m)
      (hsent : sent = done ++ waitingIn inbox) :
      Rough sent ⟨p, [], inbox, outbox, reaped, ⟨done, done, done, done⟩⟩
  /-- It has received a connection. -/
  | received {p : WorkerProc} {inbox : List Msg} {outbox : List UInt8} {reaped : Bool}
      {done : List Conn} {k : Conn} (hp : p.pc = .serving) (hin : ∀ m ∈ inbox, Sendable m)
      (hsent : sent = done ++ k :: waitingIn inbox) :
      Rough sent ⟨p, [(p.conn, k)], inbox, outbox, reaped, ⟨done ++ [k], done, done, done⟩⟩
  /-- The callback is running. -/
  | running {p : WorkerProc} {inbox : List Msg} {outbox : List UInt8} {reaped : Bool}
      {done : List Conn} {k : Conn} (hp : p.pc = .inCallback) (hin : ∀ m ∈ inbox, Sendable m)
      (hsent : sent = done ++ k :: waitingIn inbox) :
      Rough sent
        ⟨p, [(p.conn, k)], inbox, outbox, reaped, ⟨done ++ [k], done ++ [k], done, done⟩⟩
  /-- The callback has returned, the connection is still open. -/
  | returned {p : WorkerProc} {inbox : List Msg} {outbox : List UInt8} {reaped : Bool}
      {done : List Conn} {k : Conn} (hp : p.pc = .closing) (hin : ∀ m ∈ inbox, Sendable m)
      (hsent : sent = done ++ k :: waitingIn inbox) :
      Rough sent
        ⟨p, [(p.conn, k)], inbox, outbox, reaped,
          ⟨done ++ [k], done ++ [k], done ++ [k], done⟩⟩
  /-- It has ended, wherever it was. -/
  | ended {nd : Node} (hgone : nd.proc.gone = true) (hlog : InOrder sent nd.log) : Rough sent nd

section Rough

variable {sent : List Conn} {nd nd' : Node}

theorem rough_start (cmd : UInt8) : Rough [] (Node.start cmd) :=
  .idle (.inl (.inl rfl)) (fun _ hm => absurd hm (by simp)) rfl

theorem Rough.inOrder (h : Rough sent nd) : InOrder sent nd.log := by
  have hcons : ∀ (done rest : List Conn) (k : Conn), done ++ [k] <+: done ++ k :: rest := by
    intro done rest k
    rw [List.append_cons done k rest]
    exact List.prefix_append _ _
  cases h with
  | idle hp hin hsent =>
      subst hsent
      exact ⟨List.prefix_append _ _, List.prefix_rfl, List.prefix_rfl, List.prefix_rfl⟩
  | received hp hin hsent =>
      subst hsent
      exact ⟨hcons _ _ _, List.prefix_append _ _, List.prefix_rfl, List.prefix_rfl⟩
  | running hp hin hsent =>
      subst hsent
      exact ⟨hcons _ _ _, List.prefix_rfl, List.prefix_append _ _, List.prefix_rfl⟩
  | returned hp hin hsent =>
      subst hsent
      exact ⟨hcons _ _ _, List.prefix_rfl, List.prefix_rfl, List.prefix_append _ _⟩
  | ended hgone hlog => exact hlog

/-- **A worker that is alive has lost none of its connections.** -/
theorem Rough.sent_eq (h : Rough sent nd) (halive : nd.proc.gone = false) :
    sent = nd.log.received ++ waitingIn nd.inbox := by
  cases h with
  | idle hp hin hsent => exact hsent
  | received hp hin hsent | running hp hin hsent | returned hp hin hsent =>
      rw [hsent, List.append_cons]
  | ended hgone hlog => exact absurd (halive.symm.trans hgone) (by simp)

/-- About to enter its callback, or in it, a worker has one connection. -/
theorem Rough.fds_eq (h : Rough sent nd)
    (hpc : nd.proc.pc = .serving ∨ nd.proc.pc = .inCallback) :
    ∃ k, nd.fds = [(nd.proc.conn, k)] := by
  cases h with
  | @received p inbox outbox reaped done k hp hin hsent => exact ⟨k, rfl⟩
  | @running p inbox outbox reaped done k hp hin hsent => exact ⟨k, rfl⟩
  | @returned p inbox outbox reaped done k hp hin hsent => exact ⟨k, rfl⟩
  | idle hp hin hsent =>
      rcases hp with hp | hp
      · exact absurd hpc (not_or.mpr ⟨hp.not_busy.1, hp.not_busy.2.1⟩)
      · exact absurd hpc (by simp [hp])
  | ended hgone hlog => rcases hpc with hpc | hpc <;> simp [WorkerProc.gone, hpc] at hgone

/-- The callbacks that have returned, and then the one that runs, have been started. -/
theorem Rough.engaged_started (h : Rough sent nd) :
    nd.log.returned ++ ((engaged nd).map Prod.snd).toList <+: nd.log.started := by
  by_cases hpc : nd.proc.pc = .inCallback
  · cases h with
    | idle hp hin hsent =>
        rcases hp with hp | hp
        · exact absurd hpc hp.not_busy.2.1
        · exact absurd (hp.symm.trans hpc) (by simp)
    | received hp hin hsent | returned hp hin hsent => exact absurd (hp.symm.trans hpc) (by simp)
    | running hp hin hsent => rw [engaged_of_fds hp rfl]; exact List.prefix_rfl
    | ended hgone hlog => simp [WorkerProc.gone, hpc] at hgone
  · rw [engaged, if_neg hpc]
    simpa using h.inOrder.returned

/-- **A worker's own steps stay inside the list**, whatever it finds in its channel. -/
theorem rough_worker {call : WorkerCall} (h : Rough sent nd) (hs : nd.step call = some nd') :
    Rough sent nd' := by
  have halive : nd.proc.gone = false := by
    rw [← Bool.not_eq_true]
    intro hgone
    rw [Node.Stuck.step_eq_none (.inl hgone)] at hs
    cases hs
  cases h with
  | ended hgone hlog => exact absurd (halive.symm.trans hgone) (by simp)
  | @idle p inbox outbox reaped done hp hin hsent =>
      cases Node.step_cases hs with
      | plumb hpc => exact .idle (.inl (.inr rfl)) hin hsent
      | report hpc => exact .idle (.inl (.inr rfl)) hin hsent
      | @recv byte ms hpc hbox =>
          -- a message without a connection is the stop command
          cases hbox
          rcases hin _ List.mem_cons_self with heq | ⟨k, heq⟩
          · cases heq
            rw [dispatchCmd_stop]
            refine .ended rfl ⟨?_, List.prefix_rfl, List.prefix_rfl, List.prefix_rfl⟩
            rw [hsent]
            exact List.prefix_append _ _
          · cases heq
      | @recvFile byte k fd ms hpc hbox hfd =>
          cases hbox
          rcases hin _ List.mem_cons_self with heq | ⟨k', heq⟩
          · cases heq
          · cases heq
            rw [dispatchCmd_conn hfd.1]
            exact .received rfl (fun m hm => hin m (List.mem_cons_of_mem _ hm)) hsent
      | callback hpc | callbackRet hpc | close hpc =>
          rcases hp with hp | hp
          · simp_all [hp.not_busy]
          · exact absurd (hp.symm.trans hpc) (by simp)
  | @received p inbox outbox reaped done k hp hin hsent =>
      cases Node.step_cases hs with
      | callback hpc =>
          simp only [List.lookup_cons_self, Option.toList_some]
          exact .running rfl hin hsent
      | plumb hpc | recv hpc _ | recvFile hpc _ _ | callbackRet hpc | close hpc | report hpc =>
          exact absurd (hp.symm.trans hpc) (by simp)
  | @running p inbox outbox reaped done k hp hin hsent =>
      cases Node.step_cases hs with
      | callbackRet hpc =>
          simp only [List.lookup_cons_self, Option.toList_some]
          exact .returned rfl hin hsent
      | plumb hpc | recv hpc _ | recvFile hpc _ _ | callback hpc | close hpc | report hpc =>
          exact absurd (hp.symm.trans hpc) (by simp)
  | @returned p inbox outbox reaped done k hp hin hsent =>
      cases Node.step_cases hs with
      | close hpc =>
          simp only [List.lookup_cons_self, Option.toList_some, close_single]
          refine .idle (.inr rfl) hin ?_
          rw [hsent, List.append_cons]
      | plumb hpc | recv hpc _ | recvFile hpc _ _ | callback hpc | callbackRet hpc | report hpc =>
          exact absurd (hp.symm.trans hpc) (by simp)

/-- A message is put behind those that wait already. -/
theorem rough_push {m : Msg} (h : Rough sent nd) (hm : Sendable m) :
    Rough (sent ++ m.file.toList) (nd.push m) := by
  have hall : ∀ {ms : List Msg}, (∀ m ∈ ms, Sendable m) → ∀ m' ∈ ms ++ [m], Sendable m' := by
    intro ms hms m' hm'
    rcases List.mem_append.mp hm' with hm' | hm'
    · exact hms m' hm'
    · rw [List.mem_singleton.mp hm']
      exact hm
  cases h with
  | idle hp hin hsent =>
      exact .idle hp (hall hin) (by rw [hsent, waitingIn_append, List.append_assoc])
  | received hp hin hsent =>
      refine .received hp (hall hin) ?_
      rw [hsent, waitingIn_append, List.append_assoc, List.cons_append]
  | running hp hin hsent =>
      refine .running hp (hall hin) ?_
      rw [hsent, waitingIn_append, List.append_assoc, List.cons_append]
  | returned hp hin hsent =>
      refine .returned hp (hall hin) ?_
      rw [hsent, waitingIn_append, List.append_assoc, List.cons_append]
  | ended hgone hlog =>
      exact .ended hgone ⟨hlog.received.trans (List.prefix_append _ _), hlog.started,
        hlog.returned, hlog.closed⟩

/-- What the worker has written, and whether it has been waited for, may be anything. -/
theorem Rough.rewrite (h : Rough sent nd) (outbox : List UInt8) (reaped : Bool) :
    Rough sent { nd with outbox := outbox, reaped := reaped } := by
  cases h with
  | idle hp hin hsent => exact .idle hp hin hsent
  | received hp hin hsent => exact .received hp hin hsent
  | running hp hin hsent => exact .running hp hin hsent
  | returned hp hin hsent => exact .returned hp hin hsent
  | ended hgone hlog => exact .ended hgone hlog

end Rough

/-! ## The parent -/

/-- What the parent holds at each place of its control, and what it has handed over. -/
def Hands (w : World n) : Pc n → Prop
  | .submitting conn _ _ =>
      ∃ k, w.fds = [(conn, k)] ∧ w.accepted = w.submitted.map Prod.fst ++ [k]
  | .closing conn _ _ => ∃ k, w.fds = [(conn, k)] ∧ w.accepted = w.submitted.map Prod.fst
  | .overrun => ∃ last : Option Conn, w.accepted = w.submitted.map Prod.fst ++ last.toList
  | .killed => ∃ last : Option Conn, w.accepted = w.submitted.map Prod.fst ++ last.toList
  | _ => w.fds = [] ∧ w.accepted = w.submitted.map Prod.fst

/-- The invariant of the system with all its faults. -/
structure Sturdy (w : World n) : Prop where
  rough : ∀ i, Rough (w.sentTo i) (w.node i)
  hands : Hands w w.parent.pc
  /-- Clients are accepted in the order they arrived. -/
  arrived : w.accepted ++ w.backlog = List.range w.arrivals

theorem sturdy_init (c : Numbering n) (cmd : Fin n → UInt8) : Sturdy (World.start c cmd) where
  rough := fun i => rough_start (cmd i)
  hands := ⟨rfl, rfl⟩
  arrived := rfl

/-- The parent goes on to a place that fits what it holds. -/
theorem Sturdy.moved (h : Sturdy w) {p : Parent n} (hp : Hands w p.pc) :
    Sturdy { w with parent := p } := ⟨h.rough, hp, h.arrived⟩

/-- Something has happened to one worker. -/
theorem Sturdy.setNode (h : Sturdy w) {i : Fin n} {nd : Node} (hnd : Rough (w.sentTo i) nd) :
    Sturdy (w.setNode i nd) where
  rough := forall_setNode (fun j nd => Rough (w.sentTo j) nd) hnd fun j _ => h.rough j
  hands := h.hands
  arrived := h.arrived

theorem hands_afterTest {p : Parent n} {nsel : Int} {rset : Finset Nat}
    (h : w.fds = [] ∧ w.accepted = w.submitted.map Prod.fst) :
    Hands w (p.afterTest nsel rset) := by
  unfold Parent.afterTest
  split
  · exact h
  · split <;> exact h

theorem hands_afterClose {nsel : Int} {rset : Finset Nat}
    (h : w.fds = [] ∧ w.accepted = w.submitted.map Prod.fst) :
    Hands w (Parent.afterClose nsel rset) := by
  unfold Parent.afterClose
  split <;> exact h

theorem hands_afterRead {is : List (Fin n)} {nsel : Int} {rset : Finset Nat}
    (h : w.fds = [] ∧ w.accepted = w.submitted.map Prod.fst) :
    Hands w (Parent.afterRead is nsel rset) := by
  unfold Parent.afterRead
  split <;> exact h

theorem hands_afterSignal {pc : Pc n} (h : Hands w pc) : Hands w (Parent.afterSignal pc) := by
  cases pc with
  | inSelect rset => exact h
  | _ => exact h

/-- It has handed over all it accepted, but the last at most. -/
theorem Hands.accepted_eq {pc : Pc n} (h : Hands w pc) :
    ∃ last : Option Conn, w.accepted = w.submitted.map Prod.fst ++ last.toList := by
  cases pc with
  | submitting conn nsel rset =>
      obtain ⟨k, _, hacc⟩ := h
      exact ⟨some k, hacc⟩
  | closing conn nsel rset =>
      obtain ⟨k, _, hacc⟩ := h
      exact ⟨none, by rw [hacc, Option.toList_none, List.append_nil]⟩
  | overrun | killed => exact h
  | _ => exact ⟨none, by rw [h.2, Option.toList_none, List.append_nil]⟩

theorem Hands.accepted_length_le {pc : Pc n} (h : Hands w pc) :
    w.accepted.length ≤ w.submitted.length + 1 := by
  obtain ⟨last, hlast⟩ := h.accepted_eq
  rw [hlast, List.length_append, List.length_map]
  cases last <;> simp

/-- **Every call of the parent keeps the invariant**, and it does not matter what it believes. -/
theorem sturdy_parent {u : World n} {p : Parent n} {call : Call n} (h : Sturdy w)
    (hs : Parent.Step w.parent call p) (hk : World.Answer w call u) :
    Sturdy { u with parent := p } := by
  have hhands := h.hands
  cases hs with
  | enter hpc | scanned hpc | skip hpc hfd | stopped hpc | select hpc | ready hpc hsub hne
  | ret hpc =>
      cases hk
      rw [hpc] at hhands
      exact h.moved hhands
  | test hpc =>
      cases hk
      rw [hpc] at hhands
      exact h.moved (hands_afterTest hhands)
  | overrun hpc hnone =>
      cases hk
      exact h.moved hhands.accepted_eq
  | failed hpc => cases hk
  | accept hpc =>
      rw [hpc] at hhands
      cases hk with
      | @accept _ k cs hback hfree hnew =>
          refine ⟨h.rough, ⟨k, ?_, ?_⟩, ?_⟩
          · show (_, k) :: w.fds = _
            rw [hhands.1]
          · show w.accepted ++ [k] = _
            rw [hhands.2]
          · show w.accepted ++ [k] ++ cs = _
            rw [← h.arrived, hback, List.append_assoc, List.singleton_append]
  | @submit i conn nsel rset ret hpc hi hret =>
      rw [hpc] at hhands
      obtain ⟨k, hfds, hacc⟩ := hhands
      cases hk with
      | notSent hgone => exact absurd rfl hret
      | @sent _ _ _ k' halive hlook =>
          rw [hfds, List.lookup_cons_self] at hlook
          cases hlook
          refine ⟨?_, ⟨k, hfds, ?_⟩, h.arrived⟩
          · intro j
            show Rough (handedTo (w.submitted ++ [(k, i)]) j)
              (Function.update w.node i ((w.node i).push ⟨cmdConn, some k⟩) j)
            by_cases hji : j = i
            · subst hji
              rw [handedTo_snoc_self, Function.update_self]
              exact rough_push (h.rough j) (.inr ⟨k, rfl⟩)
            · rw [handedTo_snoc_ne _ _ hji, Function.update_of_ne hji]
              exact h.rough j
          · show w.accepted = (w.submitted ++ [(k, i)]).map Prod.fst
            rw [hacc, List.map_append]
            rfl
  | submitKilled hpc hi =>
      cases hk with
      | notSent hgone => exact h.moved hhands.accepted_eq
  | close hpc =>
      rw [hpc] at hhands
      obtain ⟨k, hfds, hacc⟩ := hhands
      cases hk
      refine ⟨h.rough, ?_, h.arrived⟩
      refine hands_afterClose ⟨?_, hacc⟩
      show w.fds.close _ = []
      rw [hfds, close_single]
  | readEof hpc hfd =>
      rw [hpc] at hhands
      cases hk with
      | hungUp hout hgone hret => exact h.moved hhands
  | free hpc hfd hret =>
      rw [hpc] at hhands
      cases hk with
      | hungUp hout hgone hret => exact h.moved (hands_afterRead hhands)
      | @byte _ b bs hout =>
          exact (h.setNode ((h.rough _).rewrite bs _)).moved (hands_afterRead hhands)
  | @stop i is ret hpc hret =>
      rw [hpc] at hhands
      cases hk with
      | notWritten hgone => exact absurd rfl hret
      | written halive =>
          have hpush := rough_push (h.rough i) (m := ⟨cmdStop, none⟩) (.inl rfl)
          rw [Option.toList_none, List.append_nil] at hpush
          exact (h.setNode hpush).moved hhands
  | stopKilled hpc =>
      cases hk with
      | notWritten hgone => exact h.moved hhands.accepted_eq
  | @reap i hpc =>
      cases hk with
      | reaped hgone hnot => exact h.setNode ((h.rough i).rewrite _ true)
  | sigint =>
      cases hk
      exact h.moved (hands_afterSignal hhands)

/-- **Every action keeps the invariant**, faults included. -/
theorem sturdy_step {l : Label n} (h : Sturdy w) (hs : w.step l = some w') : Sturdy w' := by
  cases l with
  | parent call =>
      obtain ⟨p, u, hp, hk, rfl⟩ := World.step_parent hs
      exact sturdy_parent h hp hk
  | worker i call =>
      obtain ⟨nd, hnd, rfl⟩ := World.step_worker hs
      exact h.setNode (rough_worker (h.rough i) hnd)
  | arrive =>
      cases hs
      refine ⟨h.rough, h.hands, ?_⟩
      show w.accepted ++ (w.backlog ++ [w.arrivals]) = List.range (w.arrivals + 1)
      rw [List.range_succ, ← h.arrived, List.append_assoc]
  | die i =>
      simp only [World.step, Option.ite_none_left_eq_some, Option.some.injEq] at hs
      obtain ⟨_, rfl⟩ := hs
      exact h.setNode (.ended rfl (h.rough i).inOrder)
  | stderr i b =>
      simp only [World.step, Option.ite_none_left_eq_some, Option.some.injEq] at hs
      obtain ⟨_, rfl⟩ := hs
      exact h.setNode ((h.rough i).rewrite _ _)

theorem sturdy_reachable (h : (World.lts c).Reachable Lts.Any w) : Sturdy w := by
  refine h.invariant ?_ ?_
  · rintro s ⟨cmd, rfl⟩
    exact sturdy_init c cmd
  · intro s l t hs _ hstep
    exact sturdy_step hs hstep

/-! ## What is left of the protocol -/

/-- Whatever the parent believes, connections are handed over in the order the clients came. -/
theorem Sturdy.handed (h : Sturdy w) : w.submitted.map Prod.fst <+: List.range w.arrivals := by
  obtain ⟨last, hacc⟩ := h.hands.accepted_eq
  rw [← h.arrived, hacc, List.append_assoc]
  exact List.prefix_append _ _

theorem Sturdy.exclusive (h : Sturdy w) : Exclusive w :=
  exclusive_of_submitted (fun i => (h.rough i).fds_eq) (fun i => (h.rough i).engaged_started)
    (fun i => (h.rough i).inOrder.started_sent) (List.nodup_range.sublist h.handed.sublist)

/--
**No fault duplicates, reorders or misroutes a connection.**

In every run, with workers dying at any moment and any bytes written to their ends of
the channels, the parent hands the clients over in the order they came and each at
most once. Every worker receives, starts, finishes and closes the connections it was
handed in that order, each at most once, and one that is alive has lost none of them.
A run ends where the parent writes to `worker[workers_n]`.
-/
theorem handed_on_in_order (c : Numbering n) {w : World n}
    (h : (World.lts c).Reachable Lts.Any w) :
    w.submitted.map Prod.fst <+: List.range w.arrivals ∧ ∀ i,
      InOrder (w.sentTo i) (w.node i).log ∧ ((w.node i).proc.gone = false →
        w.sentTo i = (w.node i).log.received ++ waitingIn (w.node i).inbox) := by
  have hs := sturdy_reachable h
  exact ⟨hs.handed, fun i => ⟨(hs.rough i).inOrder, (hs.rough i).sent_eq⟩⟩

/-- The first worker is handed a client, writes to its descriptor 2 in the callback, and is handed
the next client too. -/
def overbooked : List (Label 2) :=
  [.parent .tau, .parent .select, .arrive, .parent (.selectRet (some {3})), .parent .tau,
    .parent (.accept 20), .parent (.sendmsg firstWorker cmdConn 20 .ok), .parent (.close 20),
    .worker firstWorker .plumb, .worker firstWorker (.ipcFdRead (.got cmdConn 0)),
    .worker firstWorker (.callback 0), .stderr firstWorker 10, .parent .select,
    .parent (.selectRet (some {4})), .parent .tau, .parent (.read firstWorker (.byte 10)),
    .parent .select, .arrive, .parent (.selectRet (some {3})), .parent .tau,
    .parent (.accept 20), .parent (.sendmsg firstWorker cmdConn 20 .ok), .parent (.close 20)]

/-- Then it dies. -/
theorem handed_on_in_order_overbooked :
    ∃ w, (World.lts .twoWorkers).Reachable Lts.Any w ∧
      w.submitted = [(0, firstWorker), (1, firstWorker)] ∧
        InOrder (w.sentTo firstWorker) (w.node firstWorker).log := by
  obtain ⟨w, hrun, hsub⟩ : ∃ w, (World.lts .twoWorkers).Run Lts.Any
      (World.start .twoWorkers fun _ => 0) (overbooked ++ [.die firstWorker]) w ∧
        w.submitted = [(0, firstWorker), (1, firstWorker)] :=
    Lts.exists_run_of_exec (by decide +kernel)
  have hr : (World.lts .twoWorkers).Reachable Lts.Any w := ⟨_, _, ⟨_, rfl⟩, hrun⟩
  exact ⟨w, hr, hsub, ((handed_on_in_order .twoWorkers hr).2 firstWorker).1⟩

/-! ## What is left of the service -/

/-- Every connection is at some place of the callback. -/
def Staged (e : Echo n) : Prop := ∀ k, ∃ f, Stage f (e.stream k)

section Echo

variable {e e' : Echo n}

theorem staged_client {k : Conn} {s : Stream} (h : Staged e) (hlater : Later (e.stream k) s) :
    Staged (e.setStream k s) := by
  intro k'
  obtain ⟨f, hf⟩ := h k'
  exact ⟨f, hf.later (later_setStream hlater k')⟩

theorem staged_step {l : EchoLabel n} (h : Exclusive e.world) (he : Apart e) (hstaged : Staged e)
    (hs : e.step l = some e') : Staged e' := by
  cases l with
  | sys l =>
      intro k
      rw [(Echo.step_sys hs).2.2.1]
      exact hstaged k
  | callback i call =>
      obtain ⟨hpc, f, k, s, hk, hstep, rfl⟩ := Echo.step_callback hs
      have hengaged := he.engaged_of_lookup h hpc hk
      intro k'
      show ∃ f, Stage f (Function.update e.stream k s k')
      by_cases hkk : k' = k
      · subst hkk
        rw [Function.update_self]
        exact ⟨f, stage_step (he.running i _ k' hengaged).2 hstep⟩
      · rw [Function.update_of_ne hkk]
        exact hstaged k'
  | send k bs =>
      obtain ⟨_, rfl⟩ := Echo.step_send hs
      exact staged_client hstaged ⟨rfl, rfl, rfl, id⟩
  | finish k =>
      obtain ⟨_, rfl⟩ := Echo.step_finish hs
      exact staged_client hstaged ⟨rfl, rfl, rfl, fun _ => rfl⟩

/-- The invariant of the echo service with all its faults. -/
structure StillApart (e : Echo n) : Prop where
  world : Sturdy e.world
  apart : Apart e
  staged : Staged e

theorem stillApart_step {l : EchoLabel n} (h : StillApart e) (hs : e.step l = some e') :
    StillApart e' := by
  have hstaged := staged_step h.world.exclusive h.apart h.staged hs
  cases l with
  | sys l =>
      have hw := sturdy_step h.world (Echo.step_sys hs).2.1
      exact ⟨hw, apart_sys h.world.exclusive hw.exclusive h.apart hs, hstaged⟩
  | callback i call =>
      refine ⟨?_, apart_callback h.world.exclusive h.apart hs, hstaged⟩
      obtain ⟨_, f, k, s, _, _, rfl⟩ := Echo.step_callback hs
      exact h.world
  | send k bs =>
      refine ⟨?_, apart_send h.apart hs, hstaged⟩
      obtain ⟨_, rfl⟩ := Echo.step_send hs
      exact h.world
  | finish k =>
      refine ⟨?_, apart_finish h.apart hs, hstaged⟩
      obtain ⟨_, rfl⟩ := Echo.step_finish hs
      exact h.world

theorem stillApart_reachable (h : (Echo.lts c).Reachable Lts.Any e) : StillApart e := by
  refine h.invariant ?_ ?_
  · rintro s ⟨cmd, mem, rfl⟩
    have hstart := (echoInv_start (c := c) cmd mem).apart
    exact ⟨sturdy_init c cmd, hstart, fun k => ⟨⟨.reading, 0, 0, fun _ => 0⟩, ⟨rfl, rfl, rfl⟩⟩⟩
  · intro s l t hs _ hstep
    exact stillApart_step hs hstep

end Echo

/--
**Whichever workers die, no client gets a byte of another's.**

What has come back to a client is the front of what one `read` took from it, in
every run: the workers may die in the middle of their callbacks, and what they write
to descriptor 2 may bring any number of clients into one channel. At most one
callback is ever started for a client, in one worker. A run ends where the parent
writes to `worker[workers_n]`, as what that does is not known.
-/
theorem own_bytes_whatever_fails (c : Numbering n) {e : Echo n}
    (h : (Echo.lts c).Reachable Lts.Any e) (k : Conn) :
    OwnBytes (e.stream k)
      ∧ ((∀ i, k ∉ (e.world.node i).log.started) → Untouched (e.stream k))
      ∧ (∀ i, k ∈ (e.world.node i).log.returned → Answered (e.stream k))
      ∧ (∀ i, (e.world.node i).log.started.count k ≤ 1)
      ∧ ∀ i j, k ∈ (e.world.node i).log.started → k ∈ (e.world.node j).log.started → i = j := by
  have hs := stillApart_reachable h
  obtain ⟨f, hstage⟩ := hs.staged k
  have hexcl := hs.world.exclusive
  exact ⟨hstage.ownBytes (hs.apart.sent k), hs.apart.untouched k, fun i => hs.apart.finished i k,
    fun i => List.nodup_iff_count_le_one.mp (hexcl.nodup i) k, fun _ _ => hexcl.inj⟩

/-- The first client sends three bytes and gets two of them back; then its worker dies. -/
def diesEchoing : List (EchoLabel 2) :=
  overbooked.map .sys ++
    [.send 0 [65, 66, 67], .send 1 [90], .callback firstWorker (.read (some [65, 66, 67])),
      .callback firstWorker (.hexdump 17), .callback firstWorker (.write (some 2)),
      .sys (.die firstWorker)]

theorem own_bytes_whatever_fails_diesEchoing :
    ∃ e, (Echo.lts .twoWorkers).Reachable Lts.Any e ∧
      ((e.stream 0).echoed = [65, 66] ∧ (e.stream 1).pending = [90]) ∧ OwnBytes (e.stream 0) := by
  obtain ⟨e, hrun, hechoed⟩ : ∃ e, (Echo.lts .twoWorkers).Run Lts.Any
      (Echo.start .twoWorkers (fun _ => 0) fun _ _ => 0) diesEchoing e ∧
        (e.stream 0).echoed = [65, 66] ∧ (e.stream 1).pending = [90] :=
    Lts.exists_run_of_exec (by decide +kernel)
  have hr : (Echo.lts .twoWorkers).Reachable Lts.Any e := ⟨_, _, ⟨_, _, rfl⟩, hrun⟩
  exact ⟨e, hr, hechoed, (own_bytes_whatever_fails .twoWorkers hr 0).1⟩

end TcpServer.Proof
