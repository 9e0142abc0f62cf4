import TcpServer.Lib.Dispatcher
import TcpServer.Proof.Books
import Mathlib.Algebra.Order.BigOperators.Group.Finset

/-!
# Every connection is handed to one worker, once

The system without faults is a `Dispatcher` whose servers are the workers: a
connection is handed out by the `sendmsg` of `worker_pool_workers_submit_conn`
and finished by the worker's `close`. Between the two it is the worker's current
job, whether the worker has received it yet or not. `abs` is that view, and
`abs_step` shows that every step of the system is one of the dispatcher's two
rules or changes nothing in it.

What the dispatcher knows nothing about is descriptors. The parent closes its
copy right after sending, so what keeps the connection open then is the copy in
the message, and later the worker's. `refs` counts all three.
-/

namespace TcpServer.Proof

open TcpServer World

variable {n : Nat}

/-- The connection a worker has to finish next: one on its way to it, or one it holds. -/
def current (nd : Node) : Option Conn :=
  (nd.inbox.filterMap Msg.file ++ nd.fds.map Prod.snd).head?

/-- The system as a dispatcher. -/
def abs (w : World n) : Dispatcher (Fin n) Conn where
  assigned := w.submitted
  cur := fun i => current (w.node i)
  done := fun i => (w.node i).log.closed

/-! ## The workers' steps -/

theorem current_worker {stop : Bool} {sent : List Conn} {status : Int} {nd nd' : Node}
    {call : WorkerCall} (h : Phase stop sent status nd) (hs : nd.step call = some nd') :
    (current nd' = current nd ∧ nd'.log.closed = nd.log.closed)
      ∨ ∃ c, current nd = some c ∧ current nd' = none ∧ nd'.log.closed = nd.log.closed ++ [c] := by
  cases Node.step_cases hs with
  | plumb hpc => exact .inl ⟨rfl, rfl⟩
  | recv hpc hin => exact .inl ⟨by simp [current, hin], rfl⟩
  | recvFile hpc hin hfd =>
      -- the connection moves from the message to the worker's table
      cases h with
      | @queued p done c' hp =>
          obtain ⟨hm, rfl⟩ := List.cons.inj hin
          cases hm
          refine .inl ⟨?_, rfl⟩
          cases stop <;> simp [current, stopQueue]
      | idle hp | received hp | running hp | returned hp | closed hp | reported hp =>
          obtain ⟨_, hm, _⟩ := stopQueue_cons hin
          cases hm
      | exited _ hp | exitedReported _ hp => cases hin
  | callback hpc => exact .inl ⟨rfl, rfl⟩
  | callbackRet hpc => exact .inl ⟨rfl, rfl⟩
  | close hpc =>
      cases h with
      | @returned p done c hp =>
          refine .inr ⟨c, ?_, ?_, ?_⟩
          · cases stop <;> simp [current, stopQueue]
          · cases stop <;> simp [current, stopQueue, close_single]
          · simp only [List.lookup_cons_self, Option.toList_some]
      | idle hp | queued hp => exact absurd hpc hp.not_busy.2.2.1
      | received hp | running hp | closed hp | reported hp | exited _ hp | exitedReported _ hp =>
          exact absurd (hp.symm.trans hpc) (by simp)
  | report hpc => exact .inl ⟨rfl, rfl⟩

/-! ## The refinement -/

/-- Replacing a worker by one that looks the same does not show. -/
theorem abs_setNode_same {w : World n} {i : Fin n} {nd : Node}
    (hcur : current nd = current (w.node i)) (hclosed : nd.log.closed = (w.node i).log.closed) :
    abs (w.setNode i nd) = abs w := by
  have hfield : ∀ j, current ((w.setNode i nd).node j) = current (w.node j)
      ∧ ((w.setNode i nd).node j).log.closed = (w.node j).log.closed := by
    intro j
    by_cases hj : j = i
    · subst hj; simp [hcur, hclosed]
    · simp [setNode_node_ne _ _ hj]
  simp only [abs, hfield, setNode_submitted]

/-- A worker that finishes its current connection. -/
theorem abs_setNode_finish {w : World n} {i : Fin n} {nd : Node} {c : Conn}
    (hcur : current nd = none) (hclosed : nd.log.closed = (w.node i).log.closed ++ [c]) :
    abs (w.setNode i nd) = (abs w).finish i c := by
  have hcurs : (fun j => current ((w.setNode i nd).node j))
      = Function.update (fun j => current (w.node j)) i none := by
    funext j
    by_cases hj : j = i
    · subst hj; simp [hcur]
    · simp [setNode_node_ne _ _ hj, hj]
  have hdone : (fun j => ((w.setNode i nd).node j).log.closed)
      = Function.update (fun j => (w.node j).log.closed) i ((w.node i).log.closed ++ [c]) := by
    funext j
    by_cases hj : j = i
    · subst hj; simp [hclosed]
    · simp [setNode_node_ne _ _ hj, hj]
  simp only [abs, Dispatcher.finish, hcurs, hdone, setNode_submitted]

/-- A worker that is handed a connection while it has none. -/
theorem abs_setNode_hand {w : World n} {i : Fin n} {m : Msg} {c : Conn}
    (hidle : current (w.node i) = none) (hm : m.file = some c) :
    abs { w.setNode i ((w.node i).push m) with submitted := w.submitted ++ [(c, i)] }
      = (abs w).hand i c := by
  have hfds : (w.node i).fds.map Prod.snd = [] := by
    rw [current, List.head?_eq_none_iff, List.append_eq_nil_iff] at hidle
    exact hidle.2
  have hfiles : (w.node i).inbox.filterMap Msg.file = [] := by
    rw [current, List.head?_eq_none_iff, List.append_eq_nil_iff] at hidle
    exact hidle.1
  have hcurs : (fun j => current ((w.setNode i ((w.node i).push m)).node j))
      = Function.update (fun j => current (w.node j)) i (some c) := by
    funext j
    by_cases hj : j = i
    · subst hj
      simp [current, Node.push, hm, hfds, hfiles]
    · simp [setNode_node_ne _ _ hj, hj]
  have hdone : (fun j => ((w.setNode i ((w.node i).push m)).node j).log.closed)
      = fun j => (w.node j).log.closed := by
    funext j
    by_cases hj : j = i
    · subst hj; simp [Node.push]
    · simp [setNode_node_ne _ _ hj]
  simp only [abs, Dispatcher.hand] at hcurs hdone ⊢
  rw [← hcurs, ← hdone]

/-- Of all the parent's calls, only a `sendmsg` that succeeds hands anything out. -/
theorem abs_answer {w k : World n} {call : Call n} (hk : World.Answer w call k) :
    abs k = abs w ∨ ∃ i b conn k₀, call = .sendmsg i b conn .ok ∧ w.fds.lookup conn = some k₀ ∧
      k = { w.setNode i ((w.node i).push ⟨b, some k₀⟩) with
        submitted := w.submitted ++ [(k₀, i)] } := by
  cases hk with
  | sent halive hlook => exact .inr ⟨_, _, _, _, rfl, hlook, rfl⟩
  | byte hout => exact .inl (abs_setNode_same rfl rfl)
  | written halive =>
      -- a message without a descriptor
      refine .inl (abs_setNode_same ?_ rfl)
      simp [current, Node.push]
  | reaped hgone hnot => exact .inl (abs_setNode_same rfl rfl)
  | _ => exact .inl rfl

/-- No connection is accepted twice. -/
theorem Inv.accepted_nodup {c : Numbering n} {w : World n} (h : Inv c w) : w.accepted.Nodup := by
  have hr : (w.accepted ++ w.backlog).Nodup := by
    rw [h.arrived]
    exact List.nodup_range
  exact hr.of_append_left

/-- An idle worker has nothing to finish. -/
theorem Phase.current_of_ready {sent : List Conn} {nd : Node} (h : Phase false sent 0 nd) :
    current nd = none := by
  obtain ⟨p, _, rfl⟩ := h.idle_of_ready
  rfl

/-- **Each step is one of the dispatcher's two, or does not show.** -/
theorem abs_step {c : Numbering n} {w w' : World n} {l : Label n} (h : Inv c w)
    (hok : FaultFree w l) (hs : w.step l = some w') :
    Relation.ReflTransGen Dispatcher.Step (abs w) (abs w') := by
  cases l with
  | parent call =>
      obtain ⟨p, k, hp, hk, rfl⟩ := World.step_parent hs
      rcases abs_answer hk with hsame | ⟨i, b, conn, k₀, rfl, hlook, rfl⟩
      · have heq : abs { k with parent := p } = abs w := hsame
        rw [heq]
      · cases hp with
        | @submit _ _ nsel rset _ hpc hi hret =>
            have hctl := h.control
            rw [hpc] at hctl
            obtain ⟨_, k₁, hfds, hacc, hsub⟩ := hctl
            obtain rfl : k₁ = k₀ := by
              rw [hfds, List.lookup_cons_self] at hlook
              exact Option.some.inj hlook
            have hphase := h.phase i
            rw [hpc, WorkerPool.findReady_some hi] at hphase
            have hidle : current (w.node i) = none := Phase.current_of_ready hphase
            have habs := abs_setNode_hand (c := k₁) (m := ⟨cmdConn, some k₁⟩) hidle rfl
            refine .single ?_
            show Dispatcher.Step (abs w)
              (abs { w.setNode i ((w.node i).push ⟨cmdConn, some k₁⟩) with
                submitted := w.submitted ++ [(k₁, i)] })
            rw [habs]
            refine .hand hidle ?_
            -- everything submitted before was accepted before
            show k₁ ∉ w.submitted.map Prod.fst
            have hnd := h.accepted_nodup
            rw [hacc] at hnd
            rw [hsub]
            intro hmem
            exact (List.nodup_append.mp hnd).2.2 k₁ hmem k₁ (by simp) rfl
  | worker i call =>
      obtain ⟨nd, hnd, rfl⟩ := World.step_worker hs
      rcases current_worker (h.phase i) hnd with ⟨hcur, hclosed⟩ | ⟨k, hcur, hnone, hclosed⟩
      · rw [abs_setNode_same hcur hclosed]
      · rw [abs_setNode_finish hnone hclosed]
        exact .single (.finish hcur)
  | arrive => cases hs; exact .refl
  | die i => cases hok
  | stderr i b => cases hok

/-- **What holds of every dispatcher holds of the system.** -/
theorem abs_sound {c : Numbering n} {w : World n} (h : (World.lts c).Reachable FaultFree w) :
    (abs w).Sound := by
  obtain ⟨s, ls, ⟨cmd, rfl⟩, hrun⟩ := h
  have hsim : Relation.ReflTransGen Dispatcher.Step (abs (World.start c cmd)) (abs w) :=
    hrun.simulates abs inv_step abs_step (inv_init c cmd)
  exact Dispatcher.sound_reachable hsim

/-! ## Where a connection is -/

/-- A message on its way to the worker carries `k`. -/
def Carried (nd : Node) (k : Conn) : Prop := ∃ m ∈ nd.inbox, m.file = some k

/-- The worker has a descriptor for `k`. -/
def Held (nd : Node) (k : Conn) : Prop := ∃ e ∈ nd.fds, e.2 = k

/-- Where a submitted connection can be. -/
inductive Place (n : Nat) where
  | inFlight (i : Fin n)
  | processing (i : Fin n)
  | finished

/-- Connection `k` is at that place. -/
def At (w : World n) (k : Conn) : Place n → Prop
  | .inFlight i => Carried (w.node i) k
  | .processing i => Held (w.node i) k
  | .finished => ∃ i, k ∈ (w.node i).log.closed

/-- The open descriptors that name `k`: the parent's, those in flight, the workers'. -/
def refs (w : World n) (k : Conn) : Nat :=
  w.fds.refs k
    + ∑ i, (((w.node i).inbox.countP fun m => m.file = some k) + (w.node i).fds.refs k)

theorem Phase.current_iff {stop : Bool} {sent : List Conn} {status : Int} {nd : Node} {k : Conn}
    (h : Phase stop sent status nd) : current nd = some k ↔ Carried nd k ∨ Held nd k := by
  unfold current Carried Held
  cases h <;> cases stop <;> simp [stopQueue]

/-- What is in flight to a worker, it does not hold. -/
theorem Phase.not_carried_held {stop : Bool} {sent : List Conn} {status : Int} {nd : Node}
    {k : Conn} (h : Phase stop sent status nd) (hc : Carried nd k) : ¬ Held nd k := by
  unfold Carried at hc
  unfold Held
  cases h <;> cases stop <;> simp [stopQueue] at hc ⊢

/-- What was handed to a worker and has not come back from its callback is in flight or held. -/
theorem Phase.open_of_not_returned {stop : Bool} {sent : List Conn} {status : Int} {nd : Node}
    {k : Conn} (h : Phase stop sent status nd) (hk : k ∈ sent) (hr : k ∉ nd.log.returned) :
    Carried nd k ∨ Held nd k := by
  unfold Carried Held
  cases h with
  | @queued p done c hp =>
      have hkc : k = c := by simpa [hr] using hk
      subst hkc
      exact .inl ⟨_, List.mem_cons_self, rfl⟩
  | @received p done c hp | @running p done c hp =>
      have hkc : k = c := by simpa [hr] using hk
      subst hkc
      exact .inr ⟨_, List.mem_cons_self, rfl⟩
  | idle hp | returned hp | closed hp | reported hp | exited _ hp | exitedReported _ hp =>
      exact absurd hk hr

/-- A worker runs its callback on what it was handed, in that order. -/
theorem Phase.started_sent {stop : Bool} {sent : List Conn} {status : Int} {nd : Node}
    (h : Phase stop sent status nd) : nd.log.started <+: sent := by
  cases h with
  | queued hp | received hp => exact List.prefix_append _ _
  | _ => exact List.prefix_rfl

/-! ## Descriptors -/

theorem refs_pos_iff {t : FdTable} {k : Conn} : 0 < t.refs k ↔ ∃ e ∈ t, e.2 = k := by
  simp [FdTable.refs, List.countP_pos_iff]

theorem refs_eq_zero_iff {w : World n} {k : Conn} :
    refs w k = 0 ↔ w.fds.refs k = 0 ∧ ∀ i, ¬ Carried (w.node i) k ∧ ¬ Held (w.node i) k := by
  have hnode : ∀ nd : Node,
      (nd.inbox.countP fun m => m.file = some k) + nd.fds.refs k = 0
        ↔ ¬ Carried nd k ∧ ¬ Held nd k := by
    intro nd
    have hfds := refs_pos_iff (t := nd.fds) (k := k)
    have hbox : 0 < (nd.inbox.countP fun m => m.file = some k) ↔ Carried nd k := by
      simp [Carried, List.countP_pos_iff]
    rw [← hbox, Held, ← hfds]
    omega
  simp only [refs, Nat.add_eq_zero_iff, Finset.sum_eq_zero_iff, Finset.mem_univ, forall_const,
    ← hnode]

/-- What the parent has for the connections it accepted. -/
theorem Inv.parent_holds {c : Numbering n} {w : World n} (h : Inv c w) :
    Settled w ∨ ∃ conn k, w.fds = [(conn, k)] ∧ w.accepted = w.parentClosed ++ [k]
      ∧ (w.submitted.map Prod.fst = w.parentClosed ∨ w.submitted.map Prod.fst = w.accepted) := by
  have hctl := h.control
  cases hpc : w.parent.pc with
  | submitting conn nsel rset =>
      rw [hpc] at hctl
      obtain ⟨_, k, hfds, hacc, hsub⟩ := hctl
      exact .inr ⟨conn, k, hfds, hacc, .inl hsub⟩
  | closing conn nsel rset =>
      rw [hpc] at hctl
      obtain ⟨k, hfds, hacc, hsub⟩ := hctl
      exact .inr ⟨conn, k, hfds, hacc, .inr hsub⟩
  | overrun | killed => rw [hpc] at hctl; exact hctl.elim
  | inSelect rset | selected nsel rset | accepting nsel rset | terminating is | returned =>
      rw [hpc] at hctl; exact .inl hctl.2
  | dispatched | loopTop | scanning is nsel rset | waiting => rw [hpc] at hctl; exact .inl hctl

/-! ## The hand-off -/

/-- Every connection is handed over once, and open for exactly as long as it is needed. -/
structure HandedOffOnce (w : World n) : Prop where
  /-- A submitted connection is in exactly one place. -/
  place : ∀ k ∈ w.submitted.map Prod.fst, ∃! p : Place n, At w k p
  /-- Over all workers together, the callback is started for it at most once. -/
  started : ∀ k, ∑ i, (w.node i).log.started.count k ≤ 1
  /-- The parent's counters add up to the number of connections submitted. -/
  count : ∑ i, (w.worker i).count = w.submitted.length
  /-- It stays open until its callback has returned. -/
  isOpen : ∀ k ∈ w.accepted, (∀ i, k ∉ (w.node i).log.returned) → 0 < refs w k
  /-- It does not stay open once the parent and a worker have closed it. -/
  isClosed : ∀ k ∈ w.parentClosed, (∃ i, k ∈ (w.node i).log.closed) → refs w k = 0

theorem Inv.place {c : Numbering n} {w : World n} (h : Inv c w) (hd : (abs w).Sound) {k : Conn}
    (hk : k ∈ w.submitted.map Prod.fst) : ∃! p : Place n, At w k p := by
  obtain ⟨p, hp, huniq⟩ := hd.existsUnique_place hk
  -- both places a worker can have it in are the dispatcher's `working`
  have hworking : ∀ i, Carried (w.node i) k ∨ Held (w.node i) k → p = .working i := by
    intro i hi
    exact (huniq (.working i) ((h.phase i).current_iff.mpr hi)).symm
  have hfinished : (∃ i, k ∈ (w.node i).log.closed) → p = .finished := by
    intro hf
    exact (huniq .finished hf).symm
  cases p with
  | finished =>
      refine ⟨.finished, hp, ?_⟩
      intro q hq
      cases q with
      | finished => rfl
      | inFlight i => exact absurd (hworking i (.inl hq)) (by simp)
      | processing i => exact absurd (hworking i (.inr hq)) (by simp)
  | working i =>
      rcases (h.phase i).current_iff.mp hp with hc | hh
      · refine ⟨.inFlight i, hc, ?_⟩
        intro q hq
        cases q with
        | finished => exact absurd (hfinished hq) (by simp)
        | inFlight j =>
            have hj := hworking j (.inl hq)
            cases hj
            rfl
        | processing j =>
            have hj := hworking j (.inr hq)
            cases hj
            exact absurd hq ((h.phase i).not_carried_held hc)
      · refine ⟨.processing i, hh, ?_⟩
        intro q hq
        cases q with
        | finished => exact absurd (hfinished hq) (by simp)
        | inFlight j =>
            have hj := hworking j (.inl hq)
            cases hj
            exact absurd hh ((h.phase i).not_carried_held hq)
        | processing j =>
            have hj := hworking j (.inr hq)
            cases hj
            rfl

theorem Inv.isOpen {c : Numbering n} {w : World n} (h : Inv c w) {k : Conn}
    (hk : k ∈ w.accepted) (hr : ∀ i, k ∉ (w.node i).log.returned) : 0 < refs w k := by
  by_contra hzero
  obtain ⟨hparent, hnodes⟩ := refs_eq_zero_iff.mp (Nat.eq_zero_of_not_pos hzero)
  -- the parent does not hold it, so it has been submitted, to some worker
  have hsub : k ∈ w.submitted.map Prod.fst := by
    rcases h.parent_holds with ⟨_, hsub, _⟩ | ⟨conn, k₀, hfds, hacc, hsub⟩
    · rw [hsub]; exact hk
    · have hne : k ≠ k₀ := by
        rintro rfl
        have hmem : (conn, k) ∈ w.fds := by rw [hfds]; exact List.mem_cons_self
        have hpos : 0 < w.fds.refs k := refs_pos_iff.mpr ⟨_, hmem, rfl⟩
        omega
      have hclosed : k ∈ w.parentClosed := by
        rw [hacc] at hk
        simpa [hne] using hk
      rcases hsub with hsub | hsub
      · rw [hsub]; exact hclosed
      · rw [hsub]; exact hk
  obtain ⟨⟨k', i⟩, hmem, rfl⟩ := List.mem_map.mp hsub
  have hsent : k' ∈ w.sentTo i := (abs w).mem_assignedTo.mpr hmem
  rcases (h.phase i).open_of_not_returned hsent (hr i) with hc | hh
  · exact (hnodes i).1 hc
  · exact (hnodes i).2 hh

theorem Inv.isClosed {c : Numbering n} {w : World n} (h : Inv c w) (hd : (abs w).Sound)
    {k : Conn} (hk : k ∈ w.parentClosed) (hf : ∃ i, k ∈ (w.node i).log.closed) :
    refs w k = 0 := by
  obtain ⟨i, hi⟩ := hf
  have hsub : k ∈ w.submitted.map Prod.fst :=
    List.mem_map.mpr ⟨(k, i), hd.done_assigned hi, rfl⟩
  have hplace := h.place hd hsub
  refine refs_eq_zero_iff.mpr ⟨?_, ?_⟩
  · -- what the parent still has open it has not closed
    by_contra hpos
    obtain ⟨e, he, rfl⟩ := refs_pos_iff.mp (Nat.pos_of_ne_zero hpos)
    rcases h.parent_holds with ⟨hfds, _⟩ | ⟨conn, k₀, hfds, hacc, _⟩
    · rw [hfds] at he; cases he
    · rw [hfds, List.mem_singleton] at he
      subst he
      have hnd := h.accepted_nodup
      rw [hacc] at hnd
      exact (List.nodup_append.mp hnd).2.2 k₀ hk k₀ (by simp) rfl
  · intro j
    refine ⟨?_, ?_⟩
    · intro hc
      have heq : Place.inFlight j = .finished := hplace.unique hc ⟨i, hi⟩
      cases heq
    · intro hh
      have heq : Place.processing j = .finished := hplace.unique hh ⟨i, hi⟩
      cases heq

/--
**Connections are handed off exactly once.**

In every state of a run without faults, for any number of workers, any sequence
of clients and any interleaving, shutdown included.
-/
theorem handed_off_once (c : Numbering n) {w : World n}
    (h : (World.lts c).Reachable FaultFree w) : HandedOffOnce w := by
  have hi := inv_reachable h
  have hd := abs_sound h
  exact
    { place := fun k hk => hi.place hd hk
      started := by
        intro k
        have hle : ∑ i, (w.node i).log.started.count k ≤ ∑ i, ((abs w).assignedTo i).count k := by
          refine Finset.sum_le_sum ?_
          intro i _
          exact (hi.phase i).started_sent.sublist.count_le k
        have hone := hd.sum_count_le_one k
        omega
      count := by
        simp only [hi.count]
        exact (abs w).sum_length_assignedTo
      isOpen := fun k hk hr => hi.isOpen hk hr
      isClosed := fun k hk hf => hi.isClosed hd hk hf }

/-- The parent has closed its copy before the worker receives the connection. -/
theorem handed_off_once_received :
    ∃ w, (World.lts .oneWorker).Reachable FaultFree w
      ∧ (w.submitted = [(0, 0)] ∧ w.parentClosed = [0] ∧ (w.node 0).fds = [(0, 0)])
      ∧ HandedOffOnce w := by
  obtain ⟨w, hrun, hstate⟩ : ∃ w,
      (World.lts .oneWorker).Run FaultFree (World.start .oneWorker fun _ => 0)
          (handOver ++
            [.parent (.close 5), .worker 0 .plumb, .worker 0 (.ipcFdRead (.got cmdConn 0))]) w ∧
        w.submitted = [(0, 0)] ∧ w.parentClosed = [0] ∧ (w.node 0).fds = [(0, 0)] :=
    Lts.exists_run_of_exec (by decide +kernel)
  have hr : (World.lts .oneWorker).Reachable FaultFree w := ⟨_, _, ⟨_, rfl⟩, hrun⟩
  exact ⟨w, hr, hstate, handed_off_once .oneWorker hr⟩

end TcpServer.Proof
