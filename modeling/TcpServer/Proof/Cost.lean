import TcpServer.Proof.Served

/-!
# What a client costs

An undisturbed server does nothing that no client has caused. Each turn of its
loop, each return of `select`, takes at least one client out of the backlog or one
completion off a channel (`turns_step`), and there is one of either for each
client; so `select` returns at most twice for each client that ever connected, and
never for nothing.

All steps together, of the parent and of the workers, are bounded in the same way
by what `restLoad` gains when a client arrives.
-/

namespace TcpServer.Proof

open TcpServer World

variable {n : Nat} {c : Numbering n} {w w' : World n}

/-- A turn of the loop: `select` returns. -/
def turn : Label n → Nat
  | .parent (.selectRet _) => 1
  | _ => 0

/-- The turn has not taken anything yet. -/
def untaken (self : Server n) : Pc n → Nat
  | .selected _ _ | .accepting _ _ => 1
  | .scanning is _ rset => if is.any fun i => (self.wp.worker i).pipefd ∈ rset then 1 else 0
  | _ => 0

/-- What has been taken, and what is being taken: clients from the backlog, completions from the
channels. A worker that was handed a connection is available again once its completion is read. -/
def taken (w : World n) : Nat :=
  w.accepted.length + (w.submitted.length + w.parent.self.wp.readyCount)
    + untaken w.parent.self w.parent.pc

theorem untaken_scanning_le (self : Server n) (is : List (Fin n)) (nsel : Int)
    (rset : Finset Nat) : untaken self (.scanning is nsel rset) ≤ 1 := by
  simp only [untaken]
  split <;> omega

/-- After the test there is something to take, in the backlog or on a channel. -/
theorem untaken_afterTest (hr : Running w) {nsel : Int} {rset : Finset Nat}
    (hpc : w.parent.pc = .selected nsel rset) :
    untaken w.parent.self (w.parent.afterTest nsel rset) = 1 := by
  have hgo : w.parent.serverStop = false := hr.flag.resolve_left (by rw [hpc]; simp)
  have hpend := hr.pending
  rw [hpc] at hpend
  obtain ⟨_, ⟨fd, hfd⟩, hread⟩ := hpend
  unfold Parent.afterTest
  rw [if_neg (by rw [hgo]; simp)]
  split
  · rfl
  · rename_i hsock
    have hdue : ∃ i, (w.worker i).pipefd ∈ rset := by
      rcases hread fd hfd with ⟨rfl, _⟩ | ⟨i, rfl, _⟩
      · exact absurd hfd hsock
      · exact ⟨i, hfd⟩
    have hany : ((List.finRange n).any fun i => (w.worker i).pipefd ∈ rset) = true := by
      simpa using hdue
    simp only [untaken, if_pos hany]

/-- **Every turn of the loop takes something.** -/
theorem turns_step {l : Label n} (h : Sane c w) (hu : Undisturbed w l) (hs : w.step l = some w') :
    turn l + taken w ≤ taken w' := by
  obtain ⟨hinv, hr⟩ := h
  have hloop := hr.inLoop
  have halive : ∀ i, (w.node i).proc.gone = false := fun i =>
    hinv.not_gone (stopSent_of_not_stopping hloop i)
  unfold taken
  cases l with
  | worker i call =>
      obtain ⟨nd, _, rfl⟩ := World.step_worker hs
      simp [turn, setNode]
  | arrive => cases hs; simp [turn]
  | die i => cases hu
  | stderr i b => cases hu
  | parent call =>
      obtain ⟨p, k, hp, hk, rfl⟩ := World.step_parent hs
      cases hp with
      | enter hpc | select hpc | scanned hpc => cases hk; simp [turn, hpc, untaken]
      | test hpc =>
          cases hk
          have hone := untaken_afterTest hr hpc
          simp only [turn, hpc, untaken] at hone ⊢
          omega
      | overrun hpc hnone => cases hk; simp [turn, hpc, untaken]
      | @skip i is nsel rset hpc hfd =>
          cases hk
          simp [turn, hpc, untaken, hfd]
      | ready hpc hsub hne =>
          cases hk
          simp [turn, hpc, untaken]
          omega
      | failed hpc => cases hk
      | @accept conn nsel rset hpc =>
          cases hk with
          | accept hback _ _ =>
              simp only [turn, hpc, untaken, List.length_append, List.length_singleton]
              omega
      | @submit i conn nsel rset ret hpc hi hret =>
          cases hk with
          | notSent hgone => exact absurd rfl hret
          | sent _ _ =>
              have hcount := WorkerPool.readyCount_markBusy (WorkerPool.findReady_some hi)
              simp only [turn, hpc, untaken, Parent.setPool, setNode, List.length_append,
                List.length_singleton]
              omega
      | @submitKilled i conn nsel rset hpc hi =>
          cases hk with
          | notSent hgone => exact absurd hgone (by simp [halive i])
      | @close conn nsel rset hpc =>
          cases hk
          simp [turn, hpc, untaken]
      | @readEof i is nsel rset hpc hfd =>
          cases hk with
          | hungUp hout hgone _ => exact absurd hgone (by simp [halive i])
      | @free i is nsel rset ret hpc hfd hret =>
          cases hk with
          | hungUp hout hgone _ => exact absurd hgone (by simp [halive i])
          | @byte _ b bs hout =>
              -- only a busy worker has a completion on its channel
              have hphase := hinv.phase i
              rw [stopSent_of_not_stopping hloop i] at hphase
              have hbusy := (phase_collect hphase hout).1
              have hcount := w.parent.self.wp.readyCount_markFree i
              rw [if_neg (by rw [hbusy]; decide)] at hcount
              have hle := untaken_scanning_le w.parent.self (i :: is) nsel rset
              rw [hpc]
              simp only [turn, Parent.setPool, setNode]
              omega
      | stopped hpc | stop hpc _ | stopKilled hpc | reap hpc | ret hpc =>
          rw [hpc] at hloop
          cases hloop
      | sigint => cases hu

/-! ## There is no more to take than there are clients -/

/-- While a worker is busy, not all are ready. -/
theorem readyCount_lt {self : WorkerPool n} {i : Fin n} (h : (self.worker i).status ≠ 0) :
    self.readyCount < n := by
  have hlt : self.readyCount < (Finset.univ : Finset (Fin n)).card := by
    refine Finset.card_lt_card ((Finset.filter_ssubset).mpr ⟨i, Finset.mem_univ i, h⟩)
  simpa using hlt

/-- A channel with a completion on it is a busy worker's. -/
theorem Sane.busy_of_outbox {i : Fin n} (h : Sane c w) (hout : (w.node i).outbox ≠ []) :
    (w.worker i).status ≠ 0 := by
  have hphase := h.1.phase i
  rw [stopSent_of_not_stopping h.2.inLoop i] at hphase
  obtain ⟨b, bs, hcons⟩ := List.exists_cons_of_ne_nil hout
  rw [(phase_collect hphase hcons).1]
  decide

/-- What is about to be taken is there. -/
theorem Sane.untaken_le (h : Sane c w) :
    untaken w.parent.self w.parent.pc ≤ w.backlog.length + (n - w.parent.self.wp.readyCount) := by
  have hpend := h.2.pending
  have hclient : w.backlog ≠ [] → 0 < w.backlog.length := List.length_pos_of_ne_nil
  have hbyte : ∀ i, (w.node i).outbox ≠ [] → w.parent.self.wp.readyCount < n := fun i hout =>
    readyCount_lt (h.busy_of_outbox hout)
  cases hpc : w.parent.pc with
  | selected nsel rset =>
      rw [hpc] at hpend
      obtain ⟨_, ⟨fd, hfd⟩, hread⟩ := hpend
      simp only [untaken]
      rcases hread fd hfd with ⟨_, hback⟩ | ⟨i, rfl, _⟩
      · have hpos := hclient hback
        omega
      · have hlt := hbyte i (h.1.outbox_of_readable h.2.inLoop (hread _ hfd))
        omega
  | accepting nsel rset =>
      rw [hpc] at hpend
      have hpos := hclient hpend.2.2
      simp only [untaken]
      omega
  | scanning is nsel rset =>
      rw [hpc] at hpend
      simp only [untaken]
      split
      · rename_i hany
        obtain ⟨i, hi, hfd⟩ := List.any_eq_true.mp hany
        have hlt := hbyte i (hpend.2.1 i hi (of_decide_eq_true hfd))
        omega
      · omega
  | _ => exact Nat.zero_le _

theorem Inv.submitted_le (h : Inv c w) : w.submitted.length ≤ w.accepted.length := by
  have hmap : (w.submitted.map Prod.fst).length = w.submitted.length := List.length_map _
  rcases h.parent_holds with ⟨_, hsub, _⟩ | ⟨_, k, _, hacc, hsub | hsub⟩
  · rw [hsub] at hmap
    omega
  · rw [hsub] at hmap
    rw [hacc, List.length_append]
    omega
  · rw [hsub] at hmap
    omega

theorem Sane.taken_le (h : Sane c w) : taken w ≤ 2 * w.arrivals + n := by
  have hlen := congrArg List.length h.1.arrived
  rw [List.length_append, List.length_range] at hlen
  have hsub := h.1.submitted_le
  have hready := w.parent.self.wp.readyCount_le
  have hle := h.untaken_le
  unfold taken
  omega

theorem sane_start (cmd : Fin n → UInt8) : Sane c (World.start c cmd) :=
  ⟨inv_init c cmd, running_init cmd⟩

/--
**`select` returns at most twice for each client.**

Whatever the interleaving, the parent never makes a turn of its loop for nothing.
-/
theorem turns_le (c : Numbering n) {cmd : Fin n → UInt8} {ls : List (Label n)} {w : World n}
    (h : (World.lts c).Run Undisturbed (World.start c cmd) ls w) :
    (ls.map turn).sum ≤ 2 * w.arrivals := by
  have hcost : (ls.map turn).sum + 0 + taken (World.start c cmd) ≤ 0 + taken w := by
    refine h.amortized (P := Sane c) (a := fun _ => 0) (b := taken) ?_ (sane_start cmd)
    intro s l t hsane hu hs
    refine ⟨sane_step hsane hu hs, ?_⟩
    rw [Nat.add_zero, Nat.zero_add]
    exact turns_step hsane hu hs
  have hsane : Sane c w := h.invariant sane_step (sane_start cmd)
  have hle := hsane.taken_le
  have hstart : taken (World.start c cmd) = n := by
    show 0 + (0 + c.server.wp.readyCount) + 0 = n
    rw [c.server_readyCount]
    omega
  omega

/-- One client is served, and its completion collected. -/
def collectOne : List (Label 1) :=
  serveOne 10 [.parent (.selectRet (some {4})), .parent .tau, .parent (.read solo (.byte cmdDone)),
    .parent .select]

theorem collectOne_run : ∃ w, (World.lts channelBelow).Run Undisturbed
    (World.start channelBelow fun _ => 0) collectOne w ∧ w.arrivals = 1 :=
  Lts.exists_run_of_exec (by decide +kernel)

/-- Both turns are needed: one for the client, one for the completion. -/
theorem turns_le_serveOne :
    ∃ ls w, (World.lts channelBelow).Run Undisturbed (World.start channelBelow fun _ => 0) ls w ∧
      w.arrivals = 1 ∧ (ls.map turn).sum = 2 ∧ (ls.map turn).sum ≤ 2 * w.arrivals := by
  obtain ⟨w, hrun, harrivals⟩ := collectOne_run
  exact ⟨_, w, hrun, harrivals, by decide, turns_le channelBelow hrun⟩

/-! ## All steps together -/

/-- What there is left to do when nobody has connected yet. -/
theorem restLoad_start (cmd : Fin n → UInt8) : restLoad (World.start c cmd) = 2 * n + 6 := by
  simp [restLoad, World.start, Parent.start, turnLeft, Node.start, WorkerProc.start, work, toGo,
    owed]
  omega

/--
**All processes together make a bounded number of steps for each client**, and a
few to begin with.
-/
theorem steps_le (c : Numbering n) {cmd : Fin n → UInt8} {ls : List (Label n)} {w : World n}
    (h : (World.lts c).Run Undisturbed (World.start c cmd) ls w) :
    ls.length ≤ 2 * n + 6 + (3 * n + 19) * w.arrivals := by
  have hcost : (ls.map fun _ => 1).sum + restLoad w + (3 * n + 19) * (World.start c cmd).arrivals
      ≤ restLoad (World.start c cmd) + (3 * n + 19) * w.arrivals := by
    refine h.amortized (P := Sane c) (a := restLoad) (b := fun w => (3 * n + 19) * w.arrivals) ?_
      (sane_start cmd)
    intro s l t hsane hu hs
    refine ⟨sane_step hsane hu hs, ?_⟩
    by_cases hl : l = .arrive
    · subst hl
      cases hs
      simp only [restLoad, List.length_append, List.length_singleton, Nat.mul_add]
      omega
    · have hlt := restLoad_step hsane ⟨hu, hl⟩ hs
      rcases clients_step hs with ⟨harr, _⟩ | ⟨_, harr, _⟩
      · exact absurd harr hl
      · rw [harr]
        omega
  have hzero : (World.start c cmd).arrivals = 0 := rfl
  rw [List.map_const', List.sum_replicate_nat, restLoad_start, hzero] at hcost
  omega

theorem steps_le_serveOne :
    ∃ ls w, (World.lts channelBelow).Run Undisturbed (World.start channelBelow fun _ => 0) ls w ∧
      w.arrivals = 1 ∧ ls.length = 19 ∧ ls.length ≤ 2 * 1 + 6 + (3 * 1 + 19) * w.arrivals := by
  obtain ⟨w, hrun, harrivals⟩ := collectOne_run
  exact ⟨_, w, hrun, harrivals, by decide, steps_le channelBelow hrun⟩

end TcpServer.Proof
