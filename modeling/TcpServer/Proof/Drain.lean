import TcpServer.Proof.ExactlyOnce

/-!
# Shutting down loses no work

`worker_pool_workers_terminate` sends `'s'` to every worker, whatever it is doing
at that moment. Nothing is lost by it, because a channel is in order: the `'s'`
waits behind a connection the worker has not received yet, and a worker only
looks for the next command once it has reported the last one. So a worker that
has ended has run its callback on everything it was handed, and when the `wait`
loop has collected all of them, every accepted connection has been served.
-/

namespace TcpServer.Proof

open TcpServer World

variable {n : Nat}

/-- What `worker_pool_workers_terminate` leaves behind. -/
structure Drained (w : World n) : Prop where
  /-- Every worker exited because it was told to. -/
  stopped : ∀ i, (w.node i).proc.pc = .stopped
  /-- One worker ran the callback on each connection, once, and closed it; no other saw it. -/
  served : ∀ k ∈ w.accepted, ∃ i,
    (w.node i).log.started.count k = 1 ∧ (w.node i).log.returned.count k = 1
      ∧ (w.node i).log.closed.count k = 1
      ∧ ∀ j, j ≠ i → k ∉ (w.node j).log.started

/-- A worker that has ended has nothing left to finish. -/
theorem Phase.current_of_gone {stop : Bool} {sent : List Conn} {status : Int} {nd : Node}
    (h : Phase stop sent status nd) (hgone : nd.proc.gone = true ∨ nd.reaped = true) :
    current nd = none := by
  obtain ⟨_, hin, hfds, _⟩ := h.gone_done hgone
  simp [current, hin, hfds]

/-- Once the parent has stopped waiting, every connection it accepted has been served. -/
theorem Inv.drained {c : Numbering n} {w : World n} (h : Inv c w) (hd : (abs w).Sound)
    (hpc : w.parent.pc = .returned) : Drained w := by
  have hctl := h.control
  rw [hpc] at hctl
  obtain ⟨hreaped, _, hsub, _⟩ := hctl
  have hidle : ∀ i, (abs w).cur i = none := fun i => (h.phase i).current_of_gone (.inr (hreaped i))
  refine ⟨fun i => ((h.phase i).gone_done (.inr (hreaped i))).1, ?_⟩
  intro k hk
  rw [← hsub] at hk
  obtain ⟨⟨k', i⟩, hmem, rfl⟩ := List.mem_map.mp hk
  obtain ⟨hcount, hothers⟩ := hd.finished_once hidle hmem
  -- all four parts of a finished worker's log are what it was handed
  have hlog : ∀ j, (w.node j).log = ⟨w.sentTo j, w.sentTo j, w.sentTo j, w.sentTo j⟩ :=
    fun j => ((h.phase j).gone_done (.inr (hreaped j))).2.2.2
  have hclosed : ∀ j, (abs w).done j = w.sentTo j := by
    intro j
    show (w.node j).log.closed = w.sentTo j
    rw [hlog j]
  rw [hclosed i] at hcount
  refine ⟨i, ?_, ?_, ?_, ?_⟩
  · rw [hlog i]; exact hcount
  · rw [hlog i]; exact hcount
  · rw [hlog i]; exact hcount
  · intro j hj
    have hnot := hothers j hj
    rw [hclosed j] at hnot
    rw [hlog j]
    exact hnot

/--
**Shutdown drains the server.**

In a run without faults no worker ends before the callback has returned for
every connection handed to it; and once `worker_pool_workers_terminate` has
returned, every connection ever accepted has been served once.
-/
theorem shutdown_drains (c : Numbering n) {w : World n}
    (h : (World.lts c).Reachable FaultFree w) :
    (∀ i, (w.node i).proc.gone = true →
        (w.node i).proc.pc = .stopped ∧ ∀ k ∈ w.sentTo i, k ∈ (w.node i).log.returned)
      ∧ (w.parent.pc = .returned → Drained w) := by
  have hi := inv_reachable h
  refine ⟨?_, fun hpc => hi.drained (abs_sound h) hpc⟩
  intro i hgone
  obtain ⟨hpc, _, _, hlog⟩ := (hi.phase i).gone_done (.inl hgone)
  refine ⟨hpc, ?_⟩
  intro k hk
  rw [hlog]
  exact hk

/-- `SIGINT` arrives while the only worker is still busy; it is stopped, and collected. -/
theorem shutdown_drains_busy :
    ∃ w, (World.lts .oneWorker).Reachable FaultFree w ∧ w.accepted = [0] ∧ Drained w := by
  obtain ⟨w, hrun, hacc, hpc⟩ : ∃ w,
      (World.lts .oneWorker).Run FaultFree (World.start .oneWorker fun _ => 0)
          (handOver ++ [.parent (.close 5), .parent .select, .parent .sigint, .parent .tau,
            .parent (.write 0 cmdStop .ok), .parent .tau, .worker 0 .plumb,
            .worker 0 (.ipcFdRead (.got cmdConn 0)), .worker 0 (.callback 0),
            .worker 0 .callbackRet, .worker 0 (.close 0), .worker 0 (.write cmdDone),
            .worker 0 (.ipcFdRead (.got cmdStop (-1))), .parent (.wait (some 0)),
            .parent (.wait none)]) w ∧
        w.accepted = [0] ∧ w.parent.pc = .returned :=
    Lts.exists_run_of_exec (by decide +kernel)
  have hr : (World.lts .oneWorker).Reachable FaultFree w := ⟨_, _, ⟨_, rfl⟩, hrun⟩
  exact ⟨w, hr, hacc, (shutdown_drains .oneWorker hr).2 hpc⟩

end TcpServer.Proof
