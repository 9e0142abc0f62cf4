import TcpServer.Proof.Books

/-!
# An undisturbed server comes to rest

Leave faults and signals aside, and let `select` report exactly the readable
descriptors below the bound it is given. Then whatever `select` has reported is
still there when the parent gets to it, so the parent never blocks anywhere
else; and unless new clients keep arriving, the system runs down.

`restLoad` counts what is left: clients in the backlog, messages, jobs and
completions, each weighted so that it pays for the turn of the loop it causes.
Every step but an arrival takes some of it (`restLoad_step`), and a step is
possible until the parent sleeps with nothing to report and no worker can move
(`comes_to_rest`).
-/

namespace TcpServer.Proof

open TcpServer World

variable {n : Nat} {c : Numbering n}

/-- Runs without faults or signals in which `select` reports all it examines. -/
def Undisturbed (w : World n) (l : Label n) : Prop := w.undisturbed l = true

instance (w : World n) (l : Label n) : Decidable (Undisturbed w l) :=
  inferInstanceAs (Decidable (_ = true))

/-- Such runs in which no further client connects. -/
def Settling (w : World n) (l : Label n) : Prop := Undisturbed w l ∧ l ≠ .arrive

/-- Such runs in which only the parent takes steps. -/
def ParentAlone (w : World n) (l : Label n) : Prop := Settling w l ∧ ∃ call, l = .parent call

/-- The parent sleeps in `select` with nothing to report. -/
def Asleep (w : World n) : Prop := ∃ rset, w.parent.pc = .inSelect rset ∧ w.reported rset = ∅

/-- The parent sleeps in `select` with nothing to report, and no worker can move. -/
structure Blocked (w : World n) : Prop where
  parent : ∃ rset, w.parent.pc = .inSelect rset ∧ w.reported rset = ∅
  workers : ∀ i call, w.step (.worker i call) = none

theorem Blocked.stuck {w : World n} (h : Blocked w) (i : Fin n) : (w.node i).Stuck := by
  by_contra hmove
  obtain ⟨call, hcall⟩ := Node.exists_step hmove
  have hnone := h.workers i call
  simp only [World.step, Option.map_eq_none_iff] at hnone
  rw [hnone] at hcall
  cases hcall

theorem blocked_of_stuck {w : World n} {rset : Finset Nat} (hpc : w.parent.pc = .inSelect rset)
    (hnone : w.reported rset = ∅) (hstuck : ∀ i, (w.node i).Stuck) : Blocked w where
  parent := ⟨rset, hpc, hnone⟩
  workers := by
    intro i call
    simp only [World.step, (hstuck i).step_eq_none, Option.map_none]

/-! ## What `select` has reported is still there -/

/-- The reported workers among `is` have a byte waiting. -/
def Due (w : World n) (is : List (Fin n)) (rset : Finset Nat) : Prop :=
  ∀ i ∈ is, (w.worker i).pipefd ∈ rset → (w.node i).outbox ≠ []

/-- `select` looked at every descriptor of the set. -/
def Examined (w : World n) (rset : Finset Nat) : Prop := ∀ fd ∈ rset, fd < w.parent.self.maxfdp

/-- What the parent relies on at each place of the loop. -/
def Pending (w : World n) : Pc n → Prop
  | .selected _ rset => Examined w rset ∧ rset.Nonempty ∧ ∀ fd ∈ rset, w.Readable fd
  | .accepting _ rset => Examined w rset ∧ Due w (List.finRange n) rset ∧ w.backlog ≠ []
  | .submitting _ _ rset => Examined w rset ∧ Due w (List.finRange n) rset
  | .closing _ _ rset => Examined w rset ∧ Due w (List.finRange n) rset
  | .scanning is _ rset => Examined w rset ∧ Due w is rset ∧ is.Nodup
  | _ => True

/-- The server loop runs, and nobody has asked it to stop. -/
structure Running (w : World n) : Prop where
  flag : w.parent.pc = .dispatched ∨ w.parent.serverStop = false
  inLoop : stopping w.parent.pc = false
  pending : Pending w w.parent.pc

theorem running_init (cmd : Fin n → UInt8) : Running (World.start c cmd) :=
  ⟨.inl rfl, rfl, trivial⟩

/-- A readable channel of a worker that has not ended has a byte waiting. -/
theorem Inv.outbox_of_readable {w : World n} (h : Inv c w) (hr : stopping w.parent.pc = false)
    {i : Fin n} (hread : w.Readable (w.worker i).pipefd) : (w.node i).outbox ≠ [] := by
  have hgone : (w.node i).proc.gone = false := h.not_gone (stopSent_of_not_stopping hr i)
  rcases hread with ⟨hsock, _⟩ | ⟨j, hfd, hout⟩
  · rw [h.layout.pipefd_eq, h.layout.sockFd_eq] at hsock
    exact absurd hsock (c.pipe_ne i)
  · rw [h.layout.pipefd_eq, h.layout.pipefd_eq] at hfd
    obtain rfl := c.pipe_inj i j hfd
    rcases hout with hout | hgone'
    · exact hout
    · rw [hgone] at hgone'; cases hgone'

/-- A readable listening socket has a client waiting. -/
theorem Inv.backlog_of_readable {w : World n} (h : Inv c w)
    (hread : w.Readable w.parent.self.sockFd) : w.backlog ≠ [] := by
  rcases hread with ⟨_, hback⟩ | ⟨j, hfd, _⟩
  · exact hback
  · rw [h.layout.pipefd_eq, h.layout.sockFd_eq] at hfd
    exact absurd hfd.symm (c.pipe_ne j)

/-- Only the parent takes bytes off a channel. -/
theorem outbox_step {nd nd' : Node} {call : WorkerCall} (hs : nd.step call = some nd')
    (h : nd.outbox ≠ []) : nd'.outbox ≠ [] := by
  cases Node.step_cases hs with
  | report hpc => simp
  | _ => exact h

/-- What is pending stays so if nothing readable goes away. -/
theorem Pending.mono {w w' : World n} {pc : Pc n} (h : Pending w pc)
    (hl : Parent.SameLayout w.parent w'.parent) (hback : w.backlog ≠ [] → w'.backlog ≠ [])
    (hout : ∀ i, (w.node i).outbox ≠ [] → (w'.node i).outbox ≠ [])
    (hgone : ∀ i, (w.node i).proc.gone = true → (w'.node i).proc.gone = true) :
    Pending w' pc := by
  have hread : ∀ fd, w.Readable fd → w'.Readable fd := by
    rintro fd (⟨rfl, hb⟩ | ⟨i, rfl, hi⟩)
    · exact .inl ⟨hl.sockFd.symm, hback hb⟩
    · exact .inr ⟨i, (hl.pipefd i).symm, hi.imp (hout i) (hgone i)⟩
  have hex : ∀ rset, Examined w rset → Examined w' rset := by
    intro rset hrset fd hfd
    rw [hl.maxfdp]
    exact hrset fd hfd
  have hdue : ∀ is rset, Due w is rset → Due w' is rset := by
    intro is rset hrset i hi hfd
    refine hout i (hrset i hi ?_)
    show (w.parent.self.wp.worker i).pipefd ∈ rset
    rw [← hl.pipefd i]
    exact hfd
  cases pc with
  | selected nsel rset => exact ⟨hex _ h.1, h.2.1, fun fd hfd => hread fd (h.2.2 fd hfd)⟩
  | accepting nsel rset => exact ⟨hex _ h.1, hdue _ _ h.2.1, hback h.2.2⟩
  | submitting conn nsel rset | closing conn nsel rset => exact ⟨hex _ h.1, hdue _ _ h.2⟩
  | scanning is nsel rset => exact ⟨hex _ h.1, hdue _ _ h.2.1, h.2.2⟩
  | _ => trivial

/-- After the test of a flag that is not set, everything reported is pending. -/
theorem Inv.pending_afterTest {w : World n} (h : Inv c w) (hr : Running w) {nsel : Int}
    {rset : Finset Nat} (hpc : w.parent.pc = .selected nsel rset) :
    stopping (w.parent.afterTest nsel rset) = false
      ∧ Pending w (w.parent.afterTest nsel rset) := by
  have hgo : w.parent.serverStop = false := by
    rcases hr.flag with hflag | hflag
    · rw [hpc] at hflag; cases hflag
    · exact hflag
  have hpend := hr.pending
  rw [hpc] at hpend
  obtain ⟨hex, _, hread⟩ := hpend
  have hdue : Due w (List.finRange n) rset := fun i _ hfd =>
    h.outbox_of_readable hr.inLoop (hread _ hfd)
  unfold Parent.afterTest
  rw [if_neg (by rw [hgo]; simp)]
  split
  · rename_i hsock
    exact ⟨rfl, hex, hdue, h.backlog_of_readable (hread _ hsock)⟩
  · exact ⟨rfl, hex, hdue, List.nodup_finRange n⟩

theorem running_worker {w : World n} {i : Fin n} {call : WorkerCall} {nd : Node}
    (hr : Running w) (hs : (w.node i).step call = some nd) : Running (w.setNode i nd) := by
  have hout : ∀ j, (w.node j).outbox ≠ [] → ((w.setNode i nd).node j).outbox ≠ [] :=
    forall_setNode (fun j nd => (w.node j).outbox ≠ [] → nd.outbox ≠ []) (outbox_step hs)
      (fun j _ hj => hj)
  have hgone : ∀ j, (w.node j).proc.gone = true → ((w.setNode i nd).node j).proc.gone = true := by
    refine forall_setNode (fun j nd => (w.node j).proc.gone = true → nd.proc.gone = true) ?_
      (fun j _ hj => hj)
    -- a worker that has ended takes no step
    intro hi
    rw [Node.Stuck.step_eq_none (.inl hi) call] at hs
    cases hs
  exact ⟨hr.flag, hr.inLoop, hr.pending.mono (.refl _) id hout hgone⟩

theorem running_arrive {w : World n} (hr : Running w) :
    Running { w with backlog := w.backlog ++ [w.arrivals], arrivals := w.arrivals + 1 } :=
  ⟨hr.flag, hr.inLoop, hr.pending.mono (.refl _) (fun _ => by simp) (fun _ h => h) (fun _ h => h)⟩

/-- **Every call of the parent keeps it.** -/
theorem running_parent {w k : World n} {p : Parent n} {call : Call n} (h : Inv c w)
    (hr : Running w) (hu : Undisturbed w (.parent call)) (hs : Parent.Step w.parent call p)
    (hk : World.Answer w call k) : Running { k with parent := p } := by
  have hpend := hr.pending
  have hloop := hr.inLoop
  have hl := hs.layout
  have hflag : w.parent.pc ≠ .dispatched → w.parent.serverStop = false := hr.flag.resolve_left
  cases hs with
  | enter hpc => exact ⟨.inr rfl, rfl, trivial⟩
  | test hpc =>
      cases hk
      obtain ⟨hstop, hpend'⟩ := h.pending_afterTest hr hpc
      exact ⟨.inr (hflag (by rw [hpc]; simp)), hstop,
        hpend'.mono hl id (fun _ hj => hj) (fun _ hj => hj)⟩
  | overrun hpc hnone => exact ⟨.inr (hflag (by rw [hpc]; simp)), rfl, trivial⟩
  | scanned hpc => exact ⟨.inr (hflag (by rw [hpc]; simp)), rfl, trivial⟩
  | skip hpc hfd =>
      cases hk
      rw [hpc] at hpend
      obtain ⟨hex, hdue, hnd⟩ := hpend
      exact ⟨.inr (hflag (by rw [hpc]; simp)), rfl, hex,
        fun j hj => hdue j (List.mem_cons_of_mem _ hj), (List.nodup_cons.mp hnd).2⟩
  | select hpc => exact ⟨.inr (hflag (by rw [hpc]; simp)), rfl, trivial⟩
  | @ready rset ready hpc hsub hne =>
      have heq : ready = w.reported rset := by
        simpa [Undisturbed, World.undisturbed, hpc] using hu
      cases hk with
      | ready hread =>
          refine ⟨.inr (hflag (by rw [hpc]; simp)), rfl, ?_, hne, hread⟩
          intro fd hfd
          rw [heq] at hfd
          exact (Finset.mem_filter.mp hfd).2.1
  | failed hpc => cases hk
  | @accept conn nsel rset hpc =>
      cases hk
      rw [hpc] at hpend
      exact ⟨.inr (hflag (by rw [hpc]; simp)), rfl, hpend.1, hpend.2.1⟩
  | @submit i conn nsel rset ret hpc hi hret =>
      cases hk with
      | notSent hgone => exact absurd rfl hret
      | sent halive hlook =>
          rw [hpc] at hpend
          have hclosing : Pending w (.closing conn nsel rset) := hpend
          -- a message on its way to a worker takes nothing off its channel
          refine ⟨.inr (hflag (by rw [hpc]; simp)), rfl, hclosing.mono hl id ?_ ?_⟩
          · exact forall_setNode (fun j nd => (w.node j).outbox ≠ [] → nd.outbox ≠ []) id
              (fun j _ hj => hj)
          · exact forall_setNode (fun j nd => (w.node j).proc.gone = true → nd.proc.gone = true) id
              (fun j _ hj => hj)
  | submitKilled hpc hi => exact ⟨.inr (hflag (by rw [hpc]; simp)), rfl, trivial⟩
  | @close conn nsel rset hpc =>
      cases hk
      rw [hpc] at hpend
      refine ⟨.inr (hflag (by rw [hpc]; simp)), ?_, ?_⟩
      · dsimp only; unfold Parent.afterClose; split <;> rfl
      · dsimp only
        unfold Parent.afterClose
        split
        · trivial
        · exact ⟨hpend.1, hpend.2, List.nodup_finRange n⟩
  | readEof hpc hfd => exact ⟨.inr (hflag (by rw [hpc]; simp)), rfl, trivial⟩
  | @free i is nsel rset ret hpc hfd hret =>
      have halive := h.not_gone (stopSent_of_not_stopping hloop i)
      cases hk with
      | hungUp hout hgone _ => exact absurd hgone (by simp [halive])
      | @byte _ b bs hout =>
          rw [hpc] at hpend
          obtain ⟨hex, hdue, hnd⟩ := hpend
          obtain ⟨hi, hnd⟩ := List.nodup_cons.mp hnd
          refine ⟨.inr (hflag (by rw [hpc]; simp)), ?_, ?_⟩
          · dsimp only; unfold Parent.afterRead; split <;> rfl
          · dsimp only
            unfold Parent.afterRead
            split
            · trivial
            · refine ⟨hex, ?_, hnd⟩
              -- the workers still to visit are others than `i`
              intro j hj hfdj
              have hji : j ≠ i := fun heq => hi (heq ▸ hj)
              have hsame : (w.parent.self.wp.markFree i).worker j = w.worker j :=
                WorkerPool.markFree_ne _ hji
              show ((w.setNode i { w.node i with outbox := bs }).node j).outbox ≠ []
              rw [setNode_node_ne _ _ hji]
              refine hdue j (List.mem_cons_of_mem _ hj) ?_
              rw [← hsame]
              exact hfdj
  | stopped hpc | stop hpc _ | stopKilled hpc | reap hpc | ret hpc => rw [hpc] at hloop; cases hloop
  | sigint => cases hu

theorem running_step {w w' : World n} {l : Label n} (h : Inv c w) (hr : Running w)
    (hu : Undisturbed w l) (hs : w.step l = some w') : Running w' := by
  cases l with
  | parent call =>
      obtain ⟨p, k, hp, hk, rfl⟩ := World.step_parent hs
      exact running_parent h hr hu hp hk
  | worker i call =>
      obtain ⟨nd, hnd, rfl⟩ := World.step_worker hs
      exact running_worker hr hnd
  | arrive => cases hs; exact running_arrive hr
  | die i => cases hu
  | stderr i b => cases hu

/-- What holds throughout an undisturbed run. -/
def Sane (c : Numbering n) (w : World n) : Prop := Inv c w ∧ Running w

theorem sane_step {w w' : World n} {l : Label n} (h : Sane c w) (hu : Undisturbed w l)
    (hs : w.step l = some w') : Sane c w' :=
  ⟨inv_step h.1 (World.undisturbed_faultFree w l hu) hs, running_step h.1 h.2 hu hs⟩

theorem sane_reachable {w : World n} (h : (World.lts c).Reachable Undisturbed w) : Sane c w := by
  refine h.invariant ?_ sane_step
  rintro s ⟨cmd, rfl⟩
  exact ⟨inv_init c cmd, running_init cmd⟩

/-! ## The parent can always go on, unless it sleeps -/

/-- There is a descriptor number that `accept` can return. -/
theorem exists_fresh (s : Finset Nat) : ∃ conn : Int, FdTable.Free [] conn ∧ conn.toNat ∉ s := by
  obtain ⟨m, hm⟩ := Infinite.exists_notMem_finset s
  exact ⟨m, ⟨by omega, by simp⟩, by simpa using hm⟩

/-- **Unless it sleeps with nothing to report, the parent can take its next step.** -/
theorem Sane.parent_step {w : World n} (h : Sane c w) (hawake : ¬ Asleep w) :
    ∃ call, Settling w (.parent call) ∧ (w.step (.parent call)).isSome = true := by
  obtain ⟨hinv, hr⟩ := h
  have hctl := hinv.control
  have hpend := hr.pending
  have hloop := hr.inLoop
  have hgone : ∀ i, (w.node i).proc.gone = false := fun i =>
    hinv.not_gone (stopSent_of_not_stopping hloop i)
  cases hpc : w.parent.pc with
  | dispatched | selected nsel rset =>
      refine ⟨.tau, ⟨rfl, by simp⟩, ?_⟩
      simp [World.step, Parent.step, World.kernel, hpc]
  | loopTop =>
      refine ⟨.select, ⟨rfl, by simp⟩, ?_⟩
      simp [World.step, Parent.step, World.kernel, hpc]
  | inSelect rset =>
      have hne : (w.reported rset).Nonempty := by
        rw [Finset.nonempty_iff_ne_empty]
        intro hnone
        exact hawake ⟨rset, hpc, hnone⟩
      have hsub : w.reported rset ⊆ rset := Finset.filter_subset _ _
      have hlt : ∀ fd ∈ w.reported rset, fd < w.parent.self.maxfdp := by
        intro fd hfd
        exact (Finset.mem_filter.mp hfd).2.1
      have hread : ∀ fd ∈ w.reported rset, w.Readable fd := by
        intro fd hfd
        exact (Finset.mem_filter.mp hfd).2.2
      refine ⟨.selectRet (some (w.reported rset)), ⟨?_, by simp⟩, ?_⟩
      · simp [Undisturbed, World.undisturbed, hpc]
      · simp only [World.step, Parent.step, World.kernel, hpc]
        rw [if_pos ⟨hsub, hne, hlt⟩, if_pos hread]
        rfl
  | accepting nsel rset =>
      rw [hpc] at hctl hpend
      obtain ⟨_, hfds, _⟩ := hctl
      obtain ⟨k, cs, hback⟩ := List.exists_cons_of_ne_nil hpend.2.2
      obtain ⟨conn, hfree, hnew⟩ := exists_fresh w.parent.self.masterset
      refine ⟨.accept conn, ⟨rfl, by simp⟩, ?_⟩
      simp [World.step, Parent.step, World.kernel, hpc, hback, hfds, hfree, hnew]
  | submitting conn nsel rset =>
      -- the counter is positive, so some worker is ready
      rw [hpc] at hctl
      obtain ⟨hpos, k, hfds, _⟩ := hctl
      rw [hinv.avail] at hpos
      obtain ⟨i, hi⟩ := WorkerPool.findReady_isSome (by omega : 0 < w.parent.self.wp.readyCount)
      refine ⟨.sendmsg i cmdConn conn .ok, ⟨rfl, by simp⟩, ?_⟩
      simp [World.step, Parent.step, World.kernel, hpc, WorkerPool.workersSubmitConn, hi, hgone,
        hfds]
  | closing conn nsel rset =>
      refine ⟨.close conn, ⟨rfl, by simp⟩, ?_⟩
      simp [World.step, Parent.step, World.kernel, hpc]
  | scanning is nsel rset =>
      rw [hpc] at hpend
      cases is with
      | nil =>
          refine ⟨.tau, ⟨rfl, by simp⟩, ?_⟩
          simp [World.step, Parent.step, World.kernel, hpc]
      | cons i is =>
          by_cases hfd : (w.worker i).pipefd ∈ rset
          · obtain ⟨b, bs, hout⟩ :=
              List.exists_cons_of_ne_nil (hpend.2.1 i List.mem_cons_self hfd)
            refine ⟨.read i (.byte b), ⟨rfl, by simp⟩, ?_⟩
            simp [World.step, Parent.step, World.kernel, hpc, hfd, hout]
          · refine ⟨.tau, ⟨rfl, by simp⟩, ?_⟩
            simp [World.step, Parent.step, World.kernel, hpc, hfd]
  | terminating is | waiting | returned => rw [hpc] at hloop; cases hloop
  | overrun | killed => rw [hpc] at hctl; exact hctl.elim

/-- **Until the whole system stands still, some process can take a step.** -/
theorem Sane.exists_step {w : World n} (h : Sane c w) (hmove : ¬ Blocked w) :
    ∃ l, Settling w l ∧ (w.step l).isSome = true := by
  by_cases hsleep : Asleep w
  · obtain ⟨rset, hpc, hnone⟩ := hsleep
    have hsome : ¬ ∀ i, (w.node i).Stuck := by
      intro hstuck
      exact hmove (blocked_of_stuck hpc hnone hstuck)
    obtain ⟨i, hi⟩ := not_forall.mp hsome
    obtain ⟨call, hcall⟩ := Node.exists_step hi
    refine ⟨.worker i call, ⟨rfl, by simp⟩, ?_⟩
    rw [World.step, Option.isSome_map]
    exact hcall
  · obtain ⟨call, hok, hsome⟩ := h.parent_step hsleep
    exact ⟨.parent call, hok, hsome⟩

/-! ## What is left to do -/

/-- How far a worker is from reading its next command. -/
def toGo : WorkerPc → Nat
  | .prologue => 1
  | .reading => 0
  | .serving => 4
  | .inCallback => 3
  | .closing => 2
  | .reporting => 1
  | _ => 0

/-- The completions a worker has still to write for what it has received. -/
def owed : WorkerPc → Nat
  | .serving => 1
  | .inCallback => 1
  | .closing => 1
  | .reporting => 1
  | _ => 0

/-- What a worker has left to do, and the parent on its account: a completion costs the parent
the rest of a turn. -/
def work (n : Nat) (nd : Node) : Nat :=
  -- a byte pays for the turn after it is read; a message for its job and the byte that ends it
  toGo nd.proc.pc + (2 * n + 6) * (owed nd.proc.pc + nd.outbox.length)
    + (2 * n + 11) * nd.inbox.length

/-- What the parent has left of the current turn. It may begin the next one at a higher value
only because in between it has taken a client, or a byte. -/
def turnLeft (self : Server n) : Pc n → Nat
  | .dispatched => n + 6
  | .loopTop => n + 5
  | .inSelect _ => n + 4
  | .selected _ _ => n + 3
  | .accepting _ _ => n + 2
  | .submitting _ _ _ => 4 * n + 19
  | .closing _ _ _ => 2 * n + 7
  | .scanning is _ rset =>
      is.length + if is.any fun i => (self.wp.worker i).pipefd ∈ rset then 1 else n + 6
  | _ => 0

/-- What is left to do in the whole system. Only clients still to arrive are not in it. -/
def restLoad (w : World n) : Nat :=
  -- a client pays for being accepted, its message and the rest of that turn
  turnLeft w.parent.self w.parent.pc + (3 * n + 18) * w.backlog.length + ∑ i, work n (w.node i)

/-- A worker that received a message is at most at the beginning of a job, or has ended. -/
theorem toGo_dispatchCmd (p : WorkerProc) :
    toGo p.dispatchCmd.pc ≤ 4 := by
  unfold WorkerProc.dispatchCmd
  split
  · exact Nat.zero_le _
  · split
    · exact Nat.zero_le _
    · exact Nat.le_refl _

/-- A message is at most one job. -/
theorem work_dispatchCmd (p : WorkerProc) :
    toGo p.dispatchCmd.pc + (2 * n + 6) * owed p.dispatchCmd.pc ≤ 2 * n + 10 := by
  unfold WorkerProc.dispatchCmd
  split
  · simp [toGo, owed]
  · split
    · simp [toGo, owed]
    · simp [toGo, owed]; omega

/-- **A worker's steps take from what it has left.** -/
theorem work_step {nd nd' : Node} {call : WorkerCall} (hs : nd.step call = some nd') :
    work n nd' < work n nd := by
  unfold work
  cases Node.step_cases hs with
  | @recv byte ms hpc hin =>
      -- `omega` takes the two weighted lengths as unknowns once they are multiplied out
      have hjob := work_dispatchCmd (n := n) ⟨.reading, byte, -1⟩
      simp only [hpc, hin, toGo, owed, List.length_cons, Nat.mul_add] at hjob ⊢
      omega
  | @recvFile byte k fd ms hpc hin hfd =>
      have hjob := work_dispatchCmd (n := n) ⟨.reading, byte, fd⟩
      simp only [hpc, hin, toGo, owed, List.length_cons, Nat.mul_add] at hjob ⊢
      omega
  | report hpc =>
      simp only [hpc, toGo, owed, List.length_append, List.length_singleton, Nat.mul_add]
      omega
  | plumb hpc | callback hpc | callbackRet hpc | close hpc => simp [hpc, toGo, owed]

theorem work_push (n : Nat) (nd : Node) (m : Msg) :
    work n (nd.push m) = work n nd + (2 * n + 11) := by
  simp only [work, Node.push, List.length_append, List.length_singleton, Nat.mul_add]
  omega

theorem work_take (n : Nat) {nd : Node} {b : UInt8} {bs : List UInt8} (h : nd.outbox = b :: bs) :
    work n { nd with outbox := bs } + (2 * n + 6) = work n nd := by
  simp only [work, h, List.length_cons, Nat.mul_add]
  omega

/-- What the system has left with one worker replaced. -/
theorem sum_work_setNode (w : World n) (i : Fin n) (nd : Node) :
    ∑ j, work n ((w.setNode i nd).node j) + work n (w.node i)
      = ∑ j, work n (w.node j) + work n nd :=
  PointUpdate.sum_comp_update (work n) w.node i nd

/-- Before it has taken anything, a turn has little left. -/
theorem turnLeft_scanning_due {self : Server n} {is : List (Fin n)} {nsel : Int}
    {rset : Finset Nat} (h : ∃ i ∈ is, (self.wp.worker i).pipefd ∈ rset) :
    turnLeft self (.scanning is nsel rset) = is.length + 1 := by
  have hany : (is.any fun i => (self.wp.worker i).pipefd ∈ rset) = true := by simpa using h
  simp only [turnLeft, if_pos hany]

theorem turnLeft_scanning_le (self : Server n) (is : List (Fin n)) (nsel : Int)
    (rset : Finset Nat) : turnLeft self (.scanning is nsel rset) ≤ is.length + (n + 6) := by
  simp only [turnLeft]
  split <;> omega

theorem turnLeft_afterTest {w : World n} (hr : Running w) {nsel : Int}
    {rset : Finset Nat} (hpc : w.parent.pc = .selected nsel rset) :
    turnLeft w.parent.self (w.parent.afterTest nsel rset) < n + 3 := by
  have hgo : w.parent.serverStop = false := hr.flag.resolve_left (by rw [hpc]; simp)
  have hpend := hr.pending
  rw [hpc] at hpend
  obtain ⟨_, ⟨fd, hfd⟩, hread⟩ := hpend
  unfold Parent.afterTest
  rw [if_neg (by rw [hgo]; simp)]
  split
  · simp [turnLeft]
  · rename_i hsock
    -- something was reported, and it was not the listening socket
    have hdue : ∃ i ∈ List.finRange n, (w.worker i).pipefd ∈ rset := by
      rcases hread fd hfd with ⟨rfl, _⟩ | ⟨i, rfl, _⟩
      · exact absurd hfd hsock
      · exact ⟨i, List.mem_finRange i, hfd⟩
    rw [turnLeft_scanning_due hdue, List.length_finRange]
    omega

theorem turnLeft_afterClose_le (self : Server n) (nsel : Int) (rset : Finset Nat) :
    turnLeft self (Parent.afterClose nsel rset) ≤ 2 * n + 6 := by
  unfold Parent.afterClose
  split
  · simp only [turnLeft]; omega
  · have hle := turnLeft_scanning_le self (List.finRange n) (nsel - 1) rset
    rw [List.length_finRange] at hle
    omega

theorem turnLeft_afterRead_le (self : Server n) (is : List (Fin n)) (nsel : Int)
    (rset : Finset Nat) :
    turnLeft self (Parent.afterRead is nsel rset) ≤ is.length + (n + 6) := by
  unfold Parent.afterRead
  split
  · simp only [turnLeft]; omega
  · exact turnLeft_scanning_le self is (nsel - 1) rset

/-- **The parent's steps take from what is left.** -/
theorem restLoad_parent {w k : World n} {p : Parent n} {call : Call n} (h : Inv c w)
    (hr : Running w) (hu : Undisturbed w (.parent call)) (hs : Parent.Step w.parent call p)
    (hk : World.Answer w call k) : restLoad { k with parent := p } < restLoad w := by
  have hloop := hr.inLoop
  have halive : ∀ i, (w.node i).proc.gone = false := fun i =>
    h.not_gone (stopSent_of_not_stopping hloop i)
  unfold restLoad
  cases hs with
  | enter hpc | select hpc => cases hk; simp [hpc, turnLeft]
  | test hpc =>
      cases hk
      have hlt := turnLeft_afterTest hr hpc
      have hbefore : turnLeft w.parent.self w.parent.pc = n + 3 := by rw [hpc]; rfl
      dsimp only
      omega
  | overrun hpc hnone => cases hk; simp [hpc, turnLeft]
  | scanned hpc => cases hk; simp [hpc, turnLeft]
  | @skip i is nsel rset hpc hfd =>
      cases hk
      simp only [hpc, turnLeft, List.length_cons, List.any_cons, hfd, decide_false, Bool.false_or]
      omega
  | ready hpc hsub hne =>
      cases hk
      simp [hpc, turnLeft]
  | failed hpc => cases hk
  | @accept conn nsel rset hpc =>
      cases hk with
      | accept hback _ _ =>
          simp only [hpc, hback, turnLeft, List.length_cons, Nat.mul_add]
          omega
  | @submit i conn nsel rset ret hpc hi hret =>
      cases hk with
      | notSent hgone => exact absurd rfl hret
      | @sent _ _ _ k₀ halive hlook =>
          have hsum := sum_work_setNode w i ((w.node i).push ⟨cmdConn, some k₀⟩)
          have hpush := work_push n (w.node i) ⟨cmdConn, some k₀⟩
          have hbefore : turnLeft w.parent.self w.parent.pc = 4 * n + 19 := by rw [hpc]; rfl
          have hafter : turnLeft (w.parent.setPool (w.parent.self.wp.markBusy i)).self
              (.closing conn nsel rset) = 2 * n + 7 := rfl
          dsimp only [setNode] at hsum ⊢
          omega
  | @submitKilled i conn nsel rset hpc hi =>
      cases hk with
      | notSent hgone => exact absurd hgone (by simp [halive i])
  | @close conn nsel rset hpc =>
      cases hk
      have hle := turnLeft_afterClose_le w.parent.self nsel rset
      have hbefore : turnLeft w.parent.self w.parent.pc = 2 * n + 7 := by rw [hpc]; rfl
      dsimp only
      omega
  | @readEof i is nsel rset hpc hfd =>
      cases hk with
      | hungUp hout hgone _ => exact absurd hgone (by simp [halive i])
  | @free i is nsel rset ret hpc hfd hret =>
      cases hk with
      | hungUp hout hgone _ => exact absurd hgone (by simp [halive i])
      | @byte _ b bs hout =>
          have hsum := sum_work_setNode w i { w.node i with outbox := bs }
          have hbyte := work_take n hout
          have hle := turnLeft_afterRead_le (w.parent.setPool (w.parent.self.wp.markFree i)).self
            is nsel rset
          have hbefore : turnLeft w.parent.self w.parent.pc = is.length + 2 := by
            rw [hpc, turnLeft_scanning_due ⟨i, List.mem_cons_self, hfd⟩, List.length_cons]
          dsimp only [setNode] at hsum ⊢
          omega
  | stopped hpc | stop hpc _ | stopKilled hpc | reap hpc | ret hpc => rw [hpc] at hloop; cases hloop
  | sigint => cases hu

/-- **Every step but an arrival takes from what is left.** -/
theorem restLoad_step {w w' : World n} {l : Label n} (h : Sane c w) (hok : Settling w l)
    (hs : w.step l = some w') : restLoad w' < restLoad w := by
  obtain ⟨hinv, hr⟩ := h
  cases l with
  | parent call =>
      obtain ⟨p, k, hp, hk, rfl⟩ := World.step_parent hs
      exact restLoad_parent hinv hr hok.1 hp hk
  | worker i call =>
      obtain ⟨nd, hnd, rfl⟩ := World.step_worker hs
      have hsum := sum_work_setNode w i nd
      have hlt := work_step (n := n) hnd
      unfold restLoad
      dsimp only [setNode] at hsum ⊢
      omega
  | arrive => exact absurd rfl hok.2
  | die i => cases hok.1
  | stderr i b => cases hok.1

/-! ## Running it down -/

/-- **Without new clients, an undisturbed server comes to rest.** -/
theorem comes_to_rest {w : World n} (h : Sane c w) :
    ∃ ls w', (World.lts c).Run Settling w ls w' ∧ Blocked w' :=
  Lts.exists_run_of_measure restLoad (fun hs hok => sane_step hs hok.1) restLoad_step
    (fun hs hmove => hs.exists_step hmove) h

/-- The parent alone, its workers standing still, goes on until it sleeps. -/
theorem parent_falls_asleep {w : World n} (h : Sane c w) :
    ∃ ls w', (World.lts c).Run ParentAlone w ls w' ∧ Asleep w' := by
  have hinv : ∀ {s l t}, Sane c s → ParentAlone s l → (World.lts c).step s l = some t → Sane c t :=
    fun hs hok => sane_step hs hok.1.1
  have hdec : ∀ {s l t}, Sane c s → ParentAlone s l → (World.lts c).step s l = some t →
      restLoad t < restLoad s := fun hs hok => restLoad_step hs hok.1
  refine Lts.exists_run_of_measure restLoad hinv hdec ?_ h
  intro v hv hawake
  obtain ⟨call, hok, hsome⟩ := hv.parent_step hawake
  exact ⟨.parent call, ⟨hok, call, rfl⟩, hsome⟩

end TcpServer.Proof
