import TcpServer.Proof.ExactlyOnce
import TcpServer.Proof.Rest
import Mathlib.Data.Finset.Max

/-!
# When everything stands still, everything is done

Let `select` report exactly the readable descriptors below the bound it is
given, and leave faults and signals aside. If the parent then sleeps in `select`
and no worker can move, nothing may be left over: no worker busy, no completion
unread, no client in the backlog.

This holds as long as the bound covers every descriptor the parent watches.
`tcp_server_init` sets it to one past the listening socket;
`tcp_server_dispatch` takes the maximum with the channels' own numbers, not one
past them, so the largest channel above the listening socket stays outside. What
its worker reports is never read, and with as many clients as workers it gets
something to report (`exists_stranded`).
-/

namespace TcpServer.Proof

open TcpServer World

variable {n : Nat} {c : Numbering n}

/-- Nothing is left over. -/
structure Quiet (w : World n) : Prop where
  workers : ∀ i, (w.worker i).status = 0 ∧ Idle (w.node i)
  avail : w.parent.self.wp.availWorkersN = n
  backlog : w.backlog = []

/-- The channels are numbered below the listening socket. -/
def ChannelsBelow (c : Numbering n) : Prop := ∀ i, c.pipe i < c.sockFd

/-- While no stop has been sent, a stuck worker is idle or waits to be noticed. -/
theorem Phase.of_stuck {sent : List Conn} {status : Int} {nd : Node}
    (h : Phase false sent status nd) (hs : nd.Stuck) : status = 0 ∨ nd.outbox ≠ [] := by
  unfold Node.Stuck at hs
  rw [h.not_gone] at hs
  obtain ⟨hread, hin⟩ : nd.proc.pc = .reading ∧ nd.inbox = [] := by simpa using hs
  cases h with
  | idle hp => exact .inl rfl
  | queued hp => cases hin
  | received hp | running hp | returned hp | closed hp => rw [hp] at hread; cases hread
  | reported hp => exact .inr (List.cons_ne_nil _ _)
  | exited hstop hp | exitedReported hstop hp => cases hstop

/-- What a sleeping parent watches, and `select` examines, is not readable. -/
theorem Inv.unreadable {w : World n} (h : Inv c w) (hs : Asleep w) {fd : Nat}
    (hset : fd ∈ w.parent.self.selectSet) (hlt : fd < c.server.maxfdp) : ¬ w.Readable fd := by
  intro hread
  obtain ⟨rset, hpc, hnone⟩ := hs
  have hctl := h.control
  rw [hpc] at hctl
  have hlt' : fd < w.parent.self.maxfdp := by rw [h.layout.maxfdp]; exact hlt
  have hmem : fd ∈ w.reported rset := by
    rw [hctl.1]
    exact Finset.mem_filter.mpr ⟨hset, hlt', hread⟩
  rw [hnone] at hmem
  cases hmem

theorem Inv.phase_asleep {w : World n} (h : Inv c w) (hs : Asleep w) (i : Fin n) :
    Phase false (w.sentTo i) (w.worker i).status (w.node i) := by
  obtain ⟨rset, hpc, _⟩ := hs
  have hi := h.phase i
  rw [hpc] at hi
  exact hi

/-- While it sleeps with a worker available, nobody waits to be accepted. -/
theorem Inv.backlog_asleep {w : World n} (h : Inv c w) (hs : Asleep w)
    (hpos : 0 < w.parent.self.wp.availWorkersN) : w.backlog = [] := by
  have hset : w.parent.self.sockFd ∈ w.parent.self.selectSet := by
    unfold Server.selectSet WorkerPool.workersAvailGet
    rw [if_neg (by omega), h.layout.masterset, h.layout.sockFd_eq]
    exact (c.mem_masterset _).mpr (.inl rfl)
  have hlt : w.parent.self.sockFd < c.server.maxfdp := by
    rw [h.layout.sockFd_eq]
    exact (c.lt_maxfdp _).mpr (.inl (Nat.le_refl _))
  by_contra hback
  exact h.unreadable hs hset hlt (.inl ⟨rfl, hback⟩)

/-! ## Channels below the listening socket -/

theorem Inv.quiet {w : World n} (h : Inv c w) (hc : ChannelsBelow c) (hn : 1 ≤ n)
    (hb : Blocked w) : Quiet w := by
  have hs : Asleep w := hb.parent
  -- a busy worker that cannot move has written its completion, and that is readable
  have hready : ∀ i, (w.worker i).status = 0 := by
    intro i
    rcases (h.phase_asleep hs i).of_stuck (hb.stuck i) with hready | hout
    · exact hready
    · have hlt : (w.worker i).pipefd < c.server.maxfdp := by
        rw [h.layout.pipefd_eq]
        exact (c.lt_maxfdp _).mpr (.inl (Nat.le_of_lt (hc i)))
      have hunread := h.unreadable hs (h.layout.pipe_mem_selectSet i) hlt
      exact absurd (.inr ⟨i, rfl, .inl hout⟩) hunread
  have havail : w.parent.self.wp.availWorkersN = n := by
    have hall : w.parent.self.wp.readyCount = n := by simp [WorkerPool.readyCount, hready]
    rw [h.avail, hall]
  refine ⟨?_, havail, h.backlog_asleep hs (by omega)⟩
  intro i
  have hi := h.phase_asleep hs i
  rw [hready i] at hi
  exact ⟨hready i, hi.ready⟩

/-! ## A channel above it -/

/-- Then there is a channel that `select` never looks at: the one with the largest number. -/
theorem exists_unexamined (h : ¬ ChannelsBelow c) : ∃ m, ¬ c.pipe m < c.server.maxfdp := by
  obtain ⟨i, hi⟩ := not_forall.mp h
  obtain ⟨m, _, hmax⟩ := Finset.exists_max_image Finset.univ c.pipe ⟨i, Finset.mem_univ i⟩
  refine ⟨m, ?_⟩
  rw [c.lt_maxfdp]
  rintro (hle | ⟨j, hj⟩)
  · have him := hmax i (Finset.mem_univ i)
    have hne : c.pipe i ≠ c.sockFd := c.pipe_ne i
    omega
  · have hjm := hmax j (Finset.mem_univ j)
    omega

/-- As many clients as workers have arrived, and no worker has done anything yet. -/
structure Flooded (w : World n) : Prop where
  arrivals : w.arrivals = n
  log : ∀ i, (w.node i).log = ⟨[], [], [], []⟩
  outbox : ∀ i, (w.node i).outbox = []

theorem exists_flooded (c : Numbering n) :
    ∃ w, (World.lts c).Reachable Undisturbed w ∧ Flooded w := by
  have hok : ∀ w : World n, Undisturbed w .arrive := fun _ => rfl
  have harrive : ∀ k, ∃ ls, (World.lts c).Run Undisturbed (World.start c fun _ => 0) ls
      { World.start c fun _ => 0 with backlog := List.range k, arrivals := k } := by
    intro k
    induction k with
    | zero => exact ⟨[], .nil _⟩
    | succ k ih =>
        obtain ⟨ls, hrun⟩ := ih
        refine ⟨ls ++ [.arrive], hrun.snoc (hok _) ?_⟩
        rw [List.range_succ]
        rfl
  obtain ⟨ls, hrun⟩ := harrive n
  exact ⟨_, ⟨_, ls, ⟨_, rfl⟩, hrun⟩, rfl, fun _ => rfl, fun _ => rfl⟩

theorem Flooded.setNode {w : World n} (h : Flooded w) {i : Fin n} {nd : Node}
    (hlog : nd.log = (w.node i).log) (hout : nd.outbox = (w.node i).outbox) :
    Flooded (w.setNode i nd) where
  arrivals := h.arrivals
  log := forall_setNode (fun _ nd => nd.log = ⟨[], [], [], []⟩) (hlog.trans (h.log i))
    (fun j _ => h.log j)
  outbox := forall_setNode (fun _ nd => nd.outbox = []) (hout.trans (h.outbox i))
    (fun j _ => h.outbox j)

/-- The parent's calls leave the workers' side alone. -/
theorem Flooded.answer {w k : World n} (h : Flooded w) {call : Call n}
    (hk : World.Answer w call k) : Flooded k := by
  cases hk with
  | accept hback _ _ => exact ⟨h.arrivals, h.log, h.outbox⟩
  | @sent i b conn k₀ halive hlook =>
      have hpush : Flooded (w.setNode i ((w.node i).push ⟨b, some k₀⟩)) := h.setNode rfl rfl
      exact ⟨hpush.arrivals, hpush.log, hpush.outbox⟩
  | close => exact ⟨h.arrivals, h.log, h.outbox⟩
  | @byte i b bs hout =>
      -- there is nothing to read
      rw [h.outbox i] at hout
      cases hout
  | written halive => exact h.setNode rfl rfl
  | reaped hgone hnot => exact h.setNode rfl rfl
  | tau | select | sigint | ready _ | notSent _ | hungUp _ _ _ | notWritten _ | noChildren _ =>
      exact h

/-- A worker that has done nothing has at most one connection, and is busy if it has one. -/
theorem Phase.of_untouched {sent : List Conn} {status : Int} {nd : Node}
    (h : Phase false sent status nd) (hlog : nd.log = ⟨[], [], [], []⟩) (hout : nd.outbox = []) :
    status = 0 ∧ sent.length = 0 ∨ status = 1 ∧ sent.length = 1 := by
  cases h with
  | idle hp => simp_all
  | queued hp => simp_all
  | received hp | running hp | returned hp | closed hp => simp at hlog
  | reported hp => cases hout
  | exited hstop hp | exitedReported hstop hp => cases hstop

/-- **When the parent has fallen asleep over them, every worker is busy.** -/
theorem Inv.all_busy {w : World n} (h : Inv c w) (hf : Flooded w) (hs : Asleep w) (i : Fin n) :
    (w.worker i).status = 1 := by
  have hone : ∀ j, (w.worker j).status = 0 ∧ (w.sentTo j).length = 0
      ∨ (w.worker j).status = 1 ∧ (w.sentTo j).length = 1 := fun j =>
    (h.phase_asleep hs j).of_untouched (hf.log j) (hf.outbox j)
  rcases hone i with ⟨hready, hnone⟩ | ⟨hbusy, _⟩
  · exfalso
    -- with a worker left all clients have been accepted, so there is none left
    have hpos : 0 < w.parent.self.wp.availWorkersN := by
      have hcard : 0 < w.parent.self.wp.readyCount :=
        Finset.card_pos.mpr ⟨i, Finset.mem_filter.mpr ⟨Finset.mem_univ i, hready⟩⟩
      rw [h.avail]
      omega
    have hback := h.backlog_asleep hs hpos
    obtain ⟨rset, hpc, _⟩ := hs
    have hctl := h.control
    rw [hpc] at hctl
    obtain ⟨_, _, hsub, _⟩ := hctl
    have hlen : w.submitted.length = n := by
      have harr := h.arrived
      rw [hback, hf.arrivals, List.append_nil] at harr
      have hmap := congrArg List.length hsub
      rw [harr, List.length_map, List.length_range] at hmap
      exact hmap
    have hsum : ∑ j, (w.sentTo j).length = w.submitted.length :=
      (abs w).sum_length_assignedTo
    have hlt : ∑ j, (w.sentTo j).length < ∑ _j : Fin n, 1 := by
      refine Finset.sum_lt_sum ?_ ⟨i, Finset.mem_univ i, by omega⟩
      intro j _
      rcases hone j with hj | hj <;> omega
    rw [hsum, hlen] at hlt
    simp at hlt
  · exact hbusy

/-- A worker whose channel `select` never looks at stays busy. -/
theorem busy_step {m : Fin n} (hm : ¬ c.pipe m < c.server.maxfdp) {w w' : World n} {l : Label n}
    (h : Sane c w) (hbusy : (w.worker m).status = 1) (hs : w.step l = some w') :
    (w'.worker m).status = 1 := by
  cases l with
  | parent call =>
      obtain ⟨p, k, hp, hk, rfl⟩ := World.step_parent hs
      have hpend := h.2.pending
      show (p.self.wp.worker m).status = 1
      cases hp with
      | @submit i conn nsel rset ret hpc hi hret =>
          show ((w.parent.self.wp.markBusy i).worker m).status = 1
          by_cases hmi : m = i
          · subst hmi; exact WorkerPool.markBusy_status_self _ m
          · rw [WorkerPool.markBusy_ne _ hmi]; exact hbusy
      | @submitKilled i conn nsel rset hpc hi =>
          show ((w.parent.self.wp.markBusy i).worker m).status = 1
          by_cases hmi : m = i
          · subst hmi; exact WorkerPool.markBusy_status_self _ m
          · rw [WorkerPool.markBusy_ne _ hmi]; exact hbusy
      | @free i is nsel rset ret hpc hfd hret =>
          -- what is read has been examined, so this is some other worker
          rw [hpc] at hpend
          have hlt := hpend.1 _ hfd
          rw [h.1.layout.maxfdp, h.1.layout.pipefd_eq] at hlt
          have hmi : m ≠ i := by
            rintro rfl
            exact hm hlt
          show ((w.parent.self.wp.markFree i).worker m).status = 1
          rw [WorkerPool.markFree_ne _ hmi]
          exact hbusy
      | _ => exact hbusy
  | worker i call =>
      obtain ⟨nd, hnd, rfl⟩ := World.step_worker hs
      exact hbusy
  | arrive => cases hs; exact hbusy
  | die i =>
      simp only [World.step, Option.ite_none_left_eq_some, Option.some.injEq] at hs
      obtain ⟨_, rfl⟩ := hs
      exact hbusy
  | stderr i b =>
      simp only [World.step, Option.ite_none_left_eq_some, Option.some.injEq] at hs
      obtain ⟨_, rfl⟩ := hs
      exact hbusy

/-- **So it can be busy for ever**, with everything standing still. -/
theorem exists_stranded (h : ¬ ChannelsBelow c) :
    ∃ w, (World.lts c).Reachable Undisturbed w ∧ Blocked w ∧ ∃ m, (w.worker m).status = 1 := by
  obtain ⟨m, hm⟩ := exists_unexamined h
  obtain ⟨w₀, hr₀, hf₀⟩ := exists_flooded c
  -- the parent hands out one connection each and falls asleep
  obtain ⟨ls₁, w₁, hrun₁, hs₁⟩ := parent_falls_asleep (sane_reachable hr₀)
  have hf₁ : Flooded w₁ := by
    refine hrun₁.invariant ?_ hf₀
    rintro w l w' hf ⟨_, call, rfl⟩ hstep
    obtain ⟨p, k, _, hk, rfl⟩ := World.step_parent hstep
    have hfk := hf.answer hk
    exact ⟨hfk.arrivals, hfk.log, hfk.outbox⟩
  have hr₁ := hr₀.run (hrun₁.mono fun _ _ hok => hok.1.1)
  have hsane₁ := sane_reachable hr₁
  have hbusy₁ := hsane₁.1.all_busy hf₁ hs₁ m
  -- then everything runs down
  obtain ⟨ls₂, w₂, hrun₂, hb₂⟩ := comes_to_rest hsane₁
  have hkeep : ∀ {w l w'}, Sane c w ∧ (w.worker m).status = 1 → Settling w l →
      (World.lts c).step w l = some w' → Sane c w' ∧ (w'.worker m).status = 1 := by
    rintro w l w' ⟨hsane, hbusy⟩ hok hstep
    exact ⟨sane_step hsane hok.1 hstep, busy_step hm hsane hbusy hstep⟩
  obtain ⟨_, hbusy₂⟩ := hrun₂.invariant hkeep ⟨hsane₁, hbusy₁⟩
  exact ⟨w₂, hr₁.run (hrun₂.mono fun _ _ hok => hok.1), hb₂, m, hbusy₂⟩

/--
**A server that stands still has nothing left to do, whichever way it got there,
exactly if its channels are numbered below its listening socket.**
-/
theorem quiescent_iff_channels_below (c : Numbering n) (hn : 1 ≤ n) :
    (∀ w, (World.lts c).Reachable Undisturbed w → Blocked w → Quiet w) ↔ ChannelsBelow c := by
  constructor
  · intro hquiet
    by_contra habove
    obtain ⟨w, hr, hb, m, hbusy⟩ := exists_stranded habove
    have hready := ((hquiet w hr hb).workers m).1
    rw [hbusy] at hready
    cases hready
  · intro hc w hr hb
    exact (sane_reachable hr).1.quiet hc hn hb

/-- A client is served by the only worker; `collect` is what the parent does about the
completion. -/
def serveOne (sock : Nat) (collect : List (Label 1)) : List (Label 1) :=
  [.parent .tau, .parent .select, .arrive, .parent (.selectRet (some {sock})), .parent .tau,
    .parent (.accept 20), .parent (.sendmsg solo cmdConn 20 .ok), .parent (.close 20),
    .worker solo .plumb, .worker solo (.ipcFdRead (.got cmdConn 0)), .worker solo (.callback 0),
    .worker solo .callbackRet, .worker solo (.close 0), .worker solo (.write cmdDone),
    .parent .select] ++ collect

/-- The channel on `4`, the listening socket on `10`. -/
def channelBelow : Numbering 1 := .consecutive 1 10 4 (.inr (by decide))

theorem quiescent_iff_channels_below_serveOne :
    ∃ w, (World.lts channelBelow).Reachable Undisturbed w ∧ w.accepted = [0] ∧ Quiet w := by
  have hc : ChannelsBelow channelBelow := by unfold ChannelsBelow; decide
  obtain ⟨w, hrun, hacc, hpc, hnone, hstuck⟩ : ∃ w,
      (World.lts channelBelow).Run Undisturbed (World.start channelBelow fun _ => 0)
          (serveOne 10 [.parent (.selectRet (some {4})), .parent .tau,
            .parent (.read 0 (.byte cmdDone)), .parent .select]) w ∧
        w.accepted = [0] ∧ w.parent.pc = .inSelect {4, 10} ∧ w.reported {4, 10} = ∅ ∧
          ∀ i, (w.node i).Stuck :=
    Lts.exists_run_of_exec (by decide +kernel)
  have hr : (World.lts channelBelow).Reachable Undisturbed w := ⟨_, _, ⟨_, rfl⟩, hrun⟩
  exact ⟨w, hr, hacc, (quiescent_iff_channels_below channelBelow (by decide)).mpr hc w hr
    (blocked_of_stuck hpc hnone hstuck)⟩

/-- With the channel on `4` and the listening socket on `3`, the bound is `4`: the completion is
there, the parent sleeps, and the only worker stays busy for ever. -/
theorem completion_never_read :
    ¬ ∀ (n : Nat) (c : Numbering n), 1 ≤ n → ∀ w, (World.lts c).Reachable Undisturbed w →
      Blocked w → Quiet w := by
  intro hevery
  obtain ⟨w, hrun, hpc, hnone, hstuck, hbusy⟩ : ∃ w,
      (World.lts .oneWorker).Run Undisturbed (World.start .oneWorker fun _ => 0) (serveOne 3 []) w ∧
        w.parent.pc = .inSelect {4} ∧ w.reported {4} = ∅ ∧ (∀ i, (w.node i).Stuck) ∧
          (w.worker 0).status = 1 :=
    Lts.exists_run_of_exec (by decide +kernel)
  have hquiet := hevery 1 .oneWorker (by decide) w ⟨_, _, ⟨_, rfl⟩, hrun⟩
    (blocked_of_stuck hpc hnone hstuck)
  have hready := (hquiet.workers 0).1
  rw [hbusy] at hready
  cases hready

end TcpServer.Proof
