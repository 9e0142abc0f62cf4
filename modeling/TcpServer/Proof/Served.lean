import TcpServer.Lib.Progress
import TcpServer.Proof.Quiescence

/-!
# Every client is served

Clients may go on connecting for ever, and nothing is asked of the schedule but
that no process is left out: whoever can go on at some time and remains able to
does go on. Then every client that has connected is accepted, handed to a worker
and served to the end, however many others come after it.

Three things can keep a client waiting, and each is led out of by somebody's
steps (`Helpful`). In the backlog it is the whole system's turn: the clients
before it, and what their workers have to do, are bounded by `waitLoad`, to which
later clients add nothing. Between `accept` and `sendmsg` it is the parent's. Once
it has been handed over it is its worker's, whatever everybody else does.

For the first of the three `select` must look at the channel of one worker at
least, for completions to come back on: it is enough, and it is needed
(`serves_everyone_iff`).
-/

namespace TcpServer.Proof

open TcpServer World Lts

variable {n : Nat} {c : Numbering n} {w w' : World n} {k : Nat}

/-- The system without faults and signals, `select` reporting all it examines. -/
abbrev undisturbed (c : Numbering n) : Lts (World n) (Label n) := (World.lts c).within Undisturbed

/-- The action is a step of this process. `none` is the parent. -/
def Acts : Option (Fin n) → Label n → Prop
  | none, l => ∃ call, l = .parent call
  | some i, l => ∃ call, l = .worker i call

/-- No process is left out. -/
def Just (ρ : (undisturbed c).Trace) : Prop := ∀ p, ρ.Fair (Acts p)

/-- Some worker has run the callback for the client's connection and closed it. -/
def Served (w : World n) (k : Conn) : Prop :=
  ∃ i, k ∈ (w.node i).log.returned ∧ k ∈ (w.node i).log.closed

/-- Whoever connects is served then or later. -/
def ServesEveryone (c : Numbering n) : Prop :=
  ∀ ρ : (undisturbed c).Trace, (undisturbed c).init (ρ.state 0) → Just ρ →
    ∀ k, ρ.LeadsTo (fun w => k < w.arrivals) fun w => Served w k

/-! ## The clients -/

/-- What a step does to the clients: one arrives, the first one waiting is accepted, or nothing. -/
theorem clients_step {l : Label n} (hs : w.step l = some w') :
    (l = .arrive ∧ w' = { w with backlog := w.backlog ++ [w.arrivals], arrivals := w.arrivals + 1 })
      ∨ l ≠ .arrive ∧ w'.arrivals = w.arrivals ∧
        (w'.accepted = w.accepted ∧ w'.backlog = w.backlog
          ∨ ∃ j, w.backlog = j :: w'.backlog ∧ w'.accepted = w.accepted ++ [j]) := by
  cases l with
  | arrive => cases hs; exact .inl ⟨rfl, rfl⟩
  | parent call =>
      obtain ⟨p, u, _, hk, rfl⟩ := World.step_parent hs
      refine .inr ⟨by simp, ?_⟩
      cases hk with
      | accept hback _ _ => exact ⟨rfl, .inr ⟨_, hback, rfl⟩⟩
      | _ => exact ⟨rfl, .inl ⟨rfl, rfl⟩⟩
  | worker i call =>
      obtain ⟨nd, _, rfl⟩ := World.step_worker hs
      exact .inr ⟨by simp, rfl, .inl ⟨rfl, rfl⟩⟩
  | die i | stderr i b =>
      simp only [World.step, Option.ite_none_left_eq_some, Option.some.injEq] at hs
      obtain ⟨_, rfl⟩ := hs
      exact .inr ⟨by simp, rfl, .inl ⟨rfl, rfl⟩⟩

/-- Clients are accepted in the order they came. -/
theorem accepted_eq_range (h : w.accepted ++ w.backlog = List.range w.arrivals) :
    w.accepted = List.range w.accepted.length := by
  have hlen := congrArg List.length h
  rw [List.length_append, List.length_range] at hlen
  have htake := congrArg (List.take w.accepted.length) h
  rw [List.take_left, List.take_range, Nat.min_eq_left (by omega)] at htake
  exact htake

theorem Inv.accepted_eq (h : Inv c w) : w.accepted = List.range w.accepted.length :=
  accepted_eq_range h.arrived

theorem Inv.mem_accepted (h : Inv c w) : k ∈ w.accepted ↔ k < w.accepted.length := by
  rw [h.accepted_eq, List.mem_range, List.length_range]

/-- Who has come and has not been accepted is waiting. -/
theorem Inv.backlog_ne_nil (h : Inv c w) (hk : k < w.arrivals) (hnot : k ∉ w.accepted) :
    w.backlog ≠ [] := by
  have hmem : k ∈ w.accepted ++ w.backlog := by rw [h.arrived]; exact List.mem_range.mpr hk
  exact List.ne_nil_of_mem ((List.mem_append.mp hmem).resolve_left hnot)

/-! ## From the backlog -/

/-- What has to be done before client `k` is accepted. -/
def waitLoad (k : Nat) (w : World n) : Nat :=
  turnLeft w.parent.self w.parent.pc + (3 * n + 18) * (k + 1 - w.accepted.length)
    + ∑ i, work n (w.node i)

/-- **Every step takes from it, except that others may arrive.** -/
theorem waitLoad_step {l : Label n} (h : Sane c w) (hu : Undisturbed w l)
    (hs : w.step l = some w') (hl : l ≠ .arrive) (hnot : k ∉ w.accepted) :
    waitLoad k w' < waitLoad k w := by
  have hrest := restLoad_step h ⟨hu, hl⟩ hs
  have hle : w.accepted.length ≤ k := by
    rw [h.1.mem_accepted] at hnot
    omega
  unfold restLoad at hrest
  unfold waitLoad
  rcases clients_step hs with ⟨harr, _⟩ | ⟨_, _, ⟨hacc, hback⟩ | ⟨j, hback, hacc⟩⟩
  · exact absurd harr hl
  · rw [hacc]
    rw [hback] at hrest
    omega
  · -- one client less on either side
    rw [hback, List.length_cons, Nat.mul_succ] at hrest
    have hone : k + 1 - w.accepted.length = (k + 1 - w'.accepted.length) + 1 := by
      rw [hacc, List.length_append, List.length_singleton]
      omega
    rw [hone, Nat.mul_succ]
    omega

/-- Who can go on. -/
def CanMove : Option (Fin n) → World n → Prop
  | none, w => ¬ Asleep w
  | some i, w => ¬ (w.node i).Stuck

/-- Somebody can go on as long as a client waits, if `select` looks at some worker's channel. -/
theorem Sane.exists_canMove {i : Fin n} (h : Sane c w) (hi : c.pipe i < c.server.maxfdp)
    (hback : w.backlog ≠ []) : ∃ p, CanMove p w := by
  by_contra hnobody
  have hs : Asleep w := by
    by_contra hawake
    exact hnobody ⟨none, hawake⟩
  have hstuck : (w.node i).Stuck := by
    by_contra hmove
    exact hnobody ⟨some i, hmove⟩
  -- all are busy, so this worker has written a completion, and it is seen
  have hbusy : (w.worker i).status ≠ 0 := by
    intro hready
    refine hback (h.1.backlog_asleep hs ?_)
    have hpos : 0 < w.parent.self.wp.readyCount :=
      Finset.card_pos.mpr ⟨i, Finset.mem_filter.mpr ⟨Finset.mem_univ i, hready⟩⟩
    have havail := h.1.avail
    omega
  have hout := ((h.1.phase_asleep hs i).of_stuck hstuck).resolve_left hbusy
  have hlt : (w.worker i).pipefd < c.server.maxfdp := by
    rw [h.1.layout.pipefd_eq]
    exact hi
  exact h.1.unreadable hs (h.1.layout.pipe_mem_selectSet i) hlt (.inr ⟨i, rfl, .inl hout⟩)

theorem Sane.enabled {p : Option (Fin n)} (h : Sane c w) (hp : CanMove p w) :
    ∃ l, Acts p l ∧ ((undisturbed c).step w l).isSome = true := by
  have hallow : ∀ l, Undisturbed w l → (w.step l).isSome = true →
      ((undisturbed c).step w l).isSome = true := by
    intro l hu hsome
    obtain ⟨u, hs⟩ := Option.isSome_iff_exists.mp hsome
    exact Option.isSome_iff_exists.mpr ⟨u, step_within.mpr ⟨hu, hs⟩⟩
  cases p with
  | none =>
      obtain ⟨call, hok, hsome⟩ := h.parent_step hp
      exact ⟨.parent call, ⟨call, rfl⟩, hallow _ hok.1 hsome⟩
  | some i =>
      obtain ⟨call, hcall⟩ := Node.exists_step hp
      refine ⟨.worker i call, ⟨call, rfl⟩, hallow _ rfl ?_⟩
      rw [World.step, Option.isSome_map]
      exact hcall

/-- A client that arrives keeps nobody from going on. -/
theorem CanMove.arrive {p : Option (Fin n)} (h : CanMove p w) :
    CanMove p { w with backlog := w.backlog ++ [w.arrivals], arrivals := w.arrivals + 1 } := by
  cases p with
  | some i => exact h
  | none =>
      rintro ⟨rset, hpc, hnone⟩
      refine h ⟨rset, hpc, ?_⟩
      rw [← Finset.subset_empty, ← hnone]
      refine Finset.monotone_filter_right rset ?_
      rintro fd _ ⟨hlt, hread⟩
      exact ⟨hlt, hread.imp (fun hsock => ⟨hsock.1, by simp⟩) id⟩

/-- **Who has come is accepted.** -/
theorem accepted_of_arrived {ρ : (undisturbed c).Trace} (hfair : Just ρ) {i : Fin n}
    (hi : c.pipe i < c.server.maxfdp) (k : Nat) :
    ρ.LeadsTo (fun w => Sane c w ∧ k < w.arrivals) fun w => k ∈ w.accepted := by
  refine Trace.leadsTo_of_helpful (m := waitLoad k) (H := CanMove) hfair ?_
  refine ⟨?_, fun w p hP hp => hP.1.enabled hp, ?_⟩
  · rintro w ⟨hsane, hk⟩ hnot
    exact hsane.exists_canMove hi (hsane.1.backlog_ne_nil hk hnot)
  · rintro w l w' ⟨hsane, hk⟩ hnot hstep
    obtain ⟨hu, hs⟩ := step_within.mp hstep
    have hsane' := sane_step hsane hu hs
    rcases clients_step hs with ⟨rfl, rfl⟩ | ⟨hl, harr, _⟩
    · refine .inr ⟨⟨hsane', Nat.lt_succ_of_lt hk⟩, .inr ⟨rfl, ?_⟩⟩
      intro p hp
      refine ⟨hp.arrive, ?_⟩
      cases p <;> rintro ⟨call, heq⟩ <;> cases heq
    · refine .inr ⟨⟨hsane', ?_⟩, .inl (waitLoad_step hsane hu hs hl hnot)⟩
      rw [harr]
      exact hk

/-! ## From the parent to a worker -/

/-- What has been accepted and not handed over, the parent is about to hand over. -/
theorem Inv.submitting (h : Inv c w) (hk : k ∈ w.accepted) (hnot : ∀ i, (k, i) ∉ w.submitted) :
    ∃ conn nsel rset, w.parent.pc = .submitting conn nsel rset ∧ w.fds = [(conn, k)]
      ∧ 0 < w.parent.self.wp.availWorkersN := by
  have hmissing : w.submitted.map Prod.fst ≠ w.accepted := by
    intro heq
    rw [← heq] at hk
    obtain ⟨⟨_, i⟩, hmem, rfl⟩ := List.mem_map.mp hk
    exact hnot i hmem
  have hctl := h.control
  cases hpc : w.parent.pc with
  | submitting conn nsel rset =>
      rw [hpc] at hctl
      obtain ⟨hpos, j, hfds, hacc, hsub⟩ := hctl
      refine ⟨conn, nsel, rset, rfl, ?_, hpos⟩
      have hkj : k = j := by
        rw [hacc, ← hsub] at hk
        rcases List.mem_append.mp hk with hk | hk
        · obtain ⟨⟨_, i⟩, hmem, rfl⟩ := List.mem_map.mp hk
          exact absurd hmem (hnot i)
        · exact List.mem_singleton.mp hk
      rw [hkj]
      exact hfds
  | closing conn nsel rset =>
      rw [hpc] at hctl
      obtain ⟨_, _, _, hsub⟩ := hctl
      exact absurd hsub hmissing
  | overrun | killed => rw [hpc] at hctl; exact hctl.elim
  | inSelect rset | selected nsel rset | accepting nsel rset | terminating is | returned =>
      rw [hpc] at hctl
      exact absurd hctl.2.2.1 hmissing
  | dispatched | loopTop | scanning is nsel rset | waiting =>
      rw [hpc] at hctl
      exact absurd hctl.2.1 hmissing

/-- **What has been accepted is handed over.** -/
theorem submitted_of_accepted {ρ : (undisturbed c).Trace} (hfair : Just ρ) (k : Nat) :
    ρ.LeadsTo (fun w => Sane c w ∧ k ∈ w.accepted) fun w => ∃ i, (k, i) ∈ w.submitted := by
  refine Trace.leadsTo_of_helpful (m := fun _ => 0)
    (H := fun p w => p = none ∧ ¬ Asleep w) hfair ⟨?_, ?_, ?_⟩
  · rintro w ⟨hsane, hk⟩ hnot
    obtain ⟨conn, nsel, rset, hpc, _⟩ := hsane.1.submitting hk (not_exists.mp hnot)
    refine ⟨none, rfl, ?_⟩
    rintro ⟨_, hsleep, _⟩
    rw [hpc] at hsleep
    cases hsleep
  · rintro w p ⟨hsane, _⟩ ⟨rfl, hawake⟩
    exact hsane.enabled (p := none) hawake
  · rintro w l w' ⟨hsane, hk⟩ hnot hstep
    obtain ⟨hu, hs⟩ := step_within.mp hstep
    have hsane' := sane_step hsane hu hs
    obtain ⟨conn, nsel, rset, hpc, hfds, hpos⟩ := hsane.1.submitting hk (not_exists.mp hnot)
    cases l with
    | parent call =>
        obtain ⟨p, u, hp, hans, rfl⟩ := World.step_parent hs
        have havail := hsane.1.avail
        obtain ⟨i, hi⟩ := WorkerPool.findReady_isSome (by omega : 0 < w.parent.self.wp.readyCount)
        rcases hp.of_submitting hpc hi with ⟨ret, rfl, _⟩ | ⟨rfl, _⟩
        · cases hans with
          | sent halive hlook =>
              rw [hfds, List.lookup_cons_self] at hlook
              cases hlook
              exact .inl ⟨i, List.mem_append_right _ (List.mem_singleton_self _)⟩
          | notSent hgone =>
              rw [hsane.1.not_gone (stopSent_of_not_stopping hsane.2.inLoop i)] at hgone
              cases hgone
        · cases hu
    | worker i call =>
        obtain ⟨nd, _, rfl⟩ := World.step_worker hs
        refine .inr ⟨⟨hsane', hk⟩, .inr ⟨rfl, ?_⟩⟩
        rintro p ⟨rfl, hawake⟩
        refine ⟨⟨rfl, ?_⟩, by rintro ⟨_, heq⟩; cases heq⟩
        rintro ⟨_, hsleep, _⟩
        rw [setNode_parent, hpc] at hsleep
        cases hsleep
    | arrive =>
        cases hs
        refine .inr ⟨⟨hsane', hk⟩, .inr ⟨rfl, ?_⟩⟩
        rintro p ⟨rfl, hawake⟩
        exact ⟨⟨rfl, CanMove.arrive (p := none) hawake⟩, by rintro ⟨_, heq⟩; cases heq⟩
    | die i => cases hu
    | stderr i b => cases hu

/-! ## At the worker -/

/-- How far a worker is from the end of its work. -/
def ahead (nd : Node) : Nat := toGo nd.proc.pc + 5 * nd.inbox.length

theorem ahead_step {nd nd' : Node} {call : WorkerCall} (hs : nd.step call = some nd') :
    ahead nd' < ahead nd := by
  unfold ahead
  cases Node.step_cases hs with
  | @recv byte ms hpc hin =>
      have hjob := toGo_dispatchCmd ⟨.reading, byte, -1⟩
      simp only [hpc, hin, toGo, List.length_cons] at hjob ⊢
      omega
  | @recvFile byte j fd ms hpc hin hfd =>
      have hjob := toGo_dispatchCmd ⟨.reading, byte, fd⟩
      simp only [hpc, hin, toGo, List.length_cons] at hjob ⊢
      omega
  | plumb hpc | callback hpc | callbackRet hpc | close hpc | report hpc => simp [hpc, toGo]

/-- A worker with a connection to finish is busy, has told the parent nothing, and can go on. -/
theorem Phase.unfinished {sent : List Conn} {status : Int} {nd : Node}
    (h : Phase false sent status nd) (hk : k ∈ sent) (hnot : k ∉ nd.log.closed) :
    status = 1 ∧ nd.outbox = [] ∧ ¬ nd.Stuck := by
  unfold Node.Stuck
  rw [h.not_gone]
  cases h with
  | queued hp | received hp | running hp | returned hp => simp_all
  | idle hp | closed hp | reported hp | exited _ hp | exitedReported _ hp => exact absurd hk hnot

/-- What a worker has closed, its callback has returned from. -/
theorem Phase.closed_returned {stop : Bool} {sent : List Conn} {status : Int} {nd : Node}
    (h : Phase stop sent status nd) (hk : k ∈ nd.log.closed) : k ∈ nd.log.returned := by
  cases h with
  | returned hp => exact List.mem_append_left _ hk
  | _ => exact hk

/-- **The parent leaves a worker alone that has a connection to finish.** -/
theorem node_of_busy {u : World n} {call : Call n} {p : Parent n} {i : Fin n} (h : Sane c w)
    (hbusy : (w.worker i).status = 1) (hout : (w.node i).outbox = [])
    (hp : Parent.Step w.parent call p) (hk : World.Answer w call u) : u.node i = w.node i := by
  have hloop := h.2.inLoop
  have hgone : ∀ j, (w.node j).proc.gone = false := fun j =>
    h.1.not_gone (stopSent_of_not_stopping hloop j)
  cases hk with
  | @sent j b conn k₀ halive hlook =>
      refine setNode_node_ne _ _ ?_
      rintro rfl
      -- connections are handed to ready workers
      cases hp with
      | submit _ hi _ =>
          have hready : (w.worker i).status = 0 := WorkerPool.findReady_some hi
          rw [hready] at hbusy
          cases hbusy
  | @byte j b bs hread =>
      refine setNode_node_ne _ _ ?_
      rintro rfl
      rw [hout] at hread
      cases hread
  | written halive =>
      cases hp with
      | stop hpc _ => rw [hpc] at hloop; cases hloop
  | @reaped j hgone' hnot => rw [hgone j] at hgone'; cases hgone'
  | _ => rfl

/-- **What has been handed to a worker is served by it.** -/
theorem served_of_submitted {ρ : (undisturbed c).Trace} (hfair : Just ρ) (k : Nat) (i : Fin n) :
    ρ.LeadsTo (fun w => Sane c w ∧ (k, i) ∈ w.submitted) fun w =>
      k ∈ (w.node i).log.returned ∧ k ∈ (w.node i).log.closed := by
  have hphase : ∀ {w : World n}, Sane c w →
      Phase false (w.sentTo i) (w.worker i).status (w.node i) := by
    intro w hsane
    have hi := hsane.1.phase i
    rw [stopSent_of_not_stopping hsane.2.inLoop i] at hi
    exact hi
  have hopen : ∀ {w : World n}, Sane c w → (k, i) ∈ w.submitted →
      ¬ (k ∈ (w.node i).log.returned ∧ k ∈ (w.node i).log.closed) →
      (w.worker i).status = 1 ∧ (w.node i).outbox = [] ∧ ¬ (w.node i).Stuck := by
    intro w hsane hk hnot
    refine (hphase hsane).unfinished ((abs w).mem_assignedTo.mpr hk) ?_
    intro hclosed
    exact hnot ⟨(hphase hsane).closed_returned hclosed, hclosed⟩
  refine Trace.leadsTo_of_helpful (m := fun w => ahead (w.node i))
    (H := fun p w => p = some i ∧ ¬ (w.node i).Stuck) hfair ⟨?_, ?_, ?_⟩
  · rintro w ⟨hsane, hk⟩ hnot
    exact ⟨some i, rfl, (hopen hsane hk hnot).2.2⟩
  · rintro w p ⟨hsane, _⟩ ⟨rfl, hmove⟩
    exact hsane.enabled (p := some i) hmove
  · rintro w l w' ⟨hsane, hk⟩ hnot hstep
    obtain ⟨hu, hs⟩ := step_within.mp hstep
    have hsane' := sane_step hsane hu hs
    obtain ⟨hbusy, hout, _⟩ := hopen hsane hk hnot
    -- whoever else takes a step, the worker is as it was
    have hsame : w'.node i = w.node i → (k, i) ∈ w'.submitted → ¬ Acts (some i) l →
        (Sane c w' ∧ (k, i) ∈ w'.submitted) ∧ (ahead (w'.node i) < ahead (w.node i) ∨
          ahead (w'.node i) = ahead (w.node i) ∧ ∀ p : Option (Fin n),
            p = some i ∧ ¬ (w.node i).Stuck → (p = some i ∧ ¬ (w'.node i).Stuck) ∧ ¬ Acts p l) := by
      intro hnode hk' hacts
      rw [hnode]
      refine ⟨⟨hsane', hk'⟩, .inr ⟨rfl, ?_⟩⟩
      rintro p ⟨rfl, hmove⟩
      exact ⟨⟨rfl, hmove⟩, hacts⟩
    cases l with
    | parent call =>
        obtain ⟨p, u, hp, hans, rfl⟩ := World.step_parent hs
        have hnode := node_of_busy hsane hbusy hout hp hans
        refine .inr (hsame hnode ?_ ?_)
        · cases hans with
          | sent _ _ => exact List.mem_append_left _ hk
          | _ => exact hk
        · rintro ⟨_, heq⟩
          cases heq
    | worker j call =>
        obtain ⟨nd, hnd, rfl⟩ := World.step_worker hs
        by_cases hji : j = i
        · subst hji
          refine .inr ⟨⟨hsane', hk⟩, .inl ?_⟩
          rw [setNode_node_self]
          exact ahead_step hnd
        · refine .inr (hsame (setNode_node_ne _ _ (Ne.symm hji)) hk ?_)
          rintro ⟨_, heq⟩
          cases heq
          exact hji rfl
    | arrive =>
        cases hs
        refine .inr (hsame rfl hk ?_)
        rintro ⟨_, heq⟩
        cases heq
    | die j => cases hu
    | stderr j b => cases hu

/-! ## One after the other -/

theorem sane_always {ρ : (undisturbed c).Trace} (hinit : (undisturbed c).init (ρ.state 0))
    (t : Nat) : Sane c (ρ.state t) := by
  refine Trace.always (Sane c) ?_ ?_ t
  · obtain ⟨cmd, heq⟩ := hinit
    rw [heq]
    exact ⟨inv_init c cmd, running_init cmd⟩
  · intro t l hsane hl
    obtain ⟨hu, hs⟩ := step_within.mp (ρ.act t l hl)
    exact sane_step hsane hu hs

theorem serves_everyone_of_examined {i : Fin n} (hi : c.pipe i < c.server.maxfdp) :
    ServesEveryone c := by
  intro ρ hinit hfair k
  have hsane := sane_always hinit
  have haccepted := (accepted_of_arrived hfair hi k).of_always hsane
  have hsubmitted := (submitted_of_accepted hfair k).of_always hsane
  refine haccepted.trans (hsubmitted.trans (Trace.LeadsTo.exists fun j => ?_))
  exact ((served_of_submitted hfair k j).of_always hsane).imp fun w hw => ⟨j, hw⟩

/-- Of two channels, the one with the smaller number is looked at. -/
theorem serves_everyone_of_two (c : Numbering n) (hn : 2 ≤ n) : ServesEveryone c := by
  have hne : c.pipe ⟨0, by omega⟩ ≠ c.pipe ⟨1, by omega⟩ := by
    intro heq
    have hij := c.pipe_inj _ _ heq
    simp at hij
  rcases Nat.lt_or_gt_of_ne hne with hlt | hlt
  · exact serves_everyone_of_examined ((c.lt_maxfdp _).mpr (.inr ⟨_, hlt⟩))
  · exact serves_everyone_of_examined ((c.lt_maxfdp _).mpr (.inr ⟨_, hlt⟩))

/-! ## Nobody listens -/

/-- No worker becomes free again after its first connection. -/
def Spent (w : World n) : Prop :=
  ∀ i, (w.sentTo i).length + (if (w.worker i).status = 0 then 1 else 0) ≤ 1

theorem spent_init (cmd : Fin n → UInt8) : Spent (World.start c cmd) := by
  intro i
  show 0 + _ ≤ 1
  split <;> omega

theorem spent_step {l : Label n} (hnone : ∀ i, ¬ c.pipe i < c.server.maxfdp) (h : Sane c w)
    (hspent : Spent w) (hs : w.step l = some w') : Spent w' := by
  cases l with
  | parent call =>
      obtain ⟨p, u, hp, hans, rfl⟩ := World.step_parent hs
      have hpend := h.2.pending
      cases hp with
      | @submit i conn nsel rset ret hpc hi hret =>
          cases hans with
          | notSent _ => exact absurd rfl hret
          | @sent _ _ _ k₀ halive hlook =>
              intro j
              show (handedTo (w.submitted ++ [(k₀, i)]) j).length
                + (if ((w.parent.self.wp.markBusy i).worker j).status = 0 then 1 else 0) ≤ 1
              have hj := hspent j
              by_cases hji : j = i
              · subst hji
                have hready : (w.worker j).status = 0 := WorkerPool.findReady_some hi
                rw [if_pos hready] at hj
                rw [handedTo_snoc_self, WorkerPool.markBusy_status_self, List.length_append,
                  if_neg (by decide), List.length_singleton]
                exact hj
              · rw [handedTo_snoc_ne _ _ hji, WorkerPool.markBusy_ne _ hji]
                exact hj
      | submitKilled hpc hi =>
          cases hans with
          | notSent hgone =>
              rw [h.1.not_gone (stopSent_of_not_stopping h.2.inLoop _)] at hgone
              cases hgone
      | @free i is nsel rset ret hpc hfd hret =>
          -- nothing is read from a channel that has not been looked at
          rw [hpc] at hpend
          have hlt := hpend.1 _ hfd
          rw [h.1.layout.maxfdp, h.1.layout.pipefd_eq] at hlt
          exact absurd hlt (hnone i)
      | _ => cases hans <;> exact hspent
  | worker i call =>
      obtain ⟨nd, hnd, rfl⟩ := World.step_worker hs
      exact hspent
  | arrive => cases hs; exact hspent
  | die i | stderr i b =>
      simp only [World.step, Option.ite_none_left_eq_some, Option.some.injEq] at hs
      obtain ⟨_, rfl⟩ := hs
      exact hspent

/-- Then at most one client for each worker gets beyond the backlog. -/
theorem Inv.accepted_le (h : Inv c w) (hs : Asleep w) (hspent : Spent w) :
    w.accepted.length ≤ n := by
  obtain ⟨rset, hpc, _⟩ := hs
  have hctl := h.control
  rw [hpc] at hctl
  have hlen : w.accepted.length = w.submitted.length := by
    rw [← hctl.2.2.1, List.length_map]
  have hsum : ∑ i, (w.sentTo i).length = w.submitted.length := (abs w).sum_length_assignedTo
  have hle : ∑ i, (w.sentTo i).length ≤ ∑ _i : Fin n, 1 :=
    Finset.sum_le_sum fun i _ => Nat.le_of_add_right_le (hspent i)
  rw [hlen, ← hsum]
  simpa using hle

/-- Who is served has been accepted. -/
theorem Inv.accepted_of_served (h : Inv c w) (hs : Asleep w) (hk : Served w k) :
    k ∈ w.accepted := by
  obtain ⟨i, _, hclosed⟩ := hk
  have hsent : k ∈ w.sentTo i := by
    have hphase := h.phase_asleep hs i
    generalize (w.worker i).status = status at hphase
    generalize w.node i = nd at hphase hclosed
    generalize w.sentTo i = sent at hphase
    cases hphase with
    | queued hp | received hp | running hp | returned hp => exact List.mem_append_left _ hclosed
    | idle hp | closed hp | reported hp | exited _ hp | exitedReported _ hp => exact hclosed
  obtain ⟨rset, hpc, _⟩ := hs
  have hctl := h.control
  rw [hpc] at hctl
  rw [← hctl.2.2.1]
  exact List.mem_map.mpr ⟨(k, i), (abs w).mem_assignedTo.mp hsent, rfl⟩

/-- Once everything stands still, nobody can take a step any more. -/
theorem Blocked.no_step (h : Blocked w) {p : Option (Fin n)} {l : Label n} (hl : Acts p l) :
    (undisturbed c).step w l = none := by
  cases hs : (undisturbed c).step w l with
  | none => rfl
  | some w' =>
      exfalso
      obtain ⟨hu, hs⟩ := step_within.mp hs
      cases p with
      | some i =>
          obtain ⟨call, rfl⟩ := hl
          have hstep : w.step (.worker i call) = some w' := hs
          rw [h.workers i call] at hstep
          cases hstep
      | none =>
          obtain ⟨call, rfl⟩ := hl
          obtain ⟨rset, hpc, hnone⟩ := h.parent
          obtain ⟨p, u, hp, hans, rfl⟩ := World.step_parent hs
          cases hp with
          | @ready rset' ready hpc' hsub hne =>
              rw [hpc] at hpc'
              cases hpc'
              have heq : ready = w.reported rset := by
                simpa [Undisturbed, World.undisturbed, hpc] using hu
              rw [heq, hnone] at hne
              exact absurd hne Finset.not_nonempty_empty
          | failed hpc' => cases hans
          | sigint => cases hu
          | _ => simp_all

/-- With one client more than there are workers, the last one waits for ever. -/
theorem not_serves_everyone (hnone : ∀ i, ¬ c.pipe i < c.server.maxfdp) : ¬ ServesEveryone c := by
  intro hserves
  obtain ⟨w₀, hr₀, hflooded⟩ := exists_flooded c
  have hr₁ : (World.lts c).Reachable Undisturbed
      { w₀ with backlog := w₀.backlog ++ [w₀.arrivals], arrivals := w₀.arrivals + 1 } :=
    hr₀.run (.cons (show Undisturbed w₀ .arrive from rfl) rfl (.nil _))
  obtain ⟨ls, w, hrun, hblocked⟩ := comes_to_rest (sane_reachable hr₁)
  have harrivals : w.arrivals = n + 1 := by
    refine hrun.invariant (P := fun w => w.arrivals = n + 1) ?_ (by rw [hflooded.arrivals])
    intro w l w' harr hok hs
    rcases clients_step hs with ⟨hl, _⟩ | ⟨_, heq, _⟩
    · exact absurd hl hok.2
    · rw [heq]
      exact harr
  have hr := hr₁.run (hrun.mono fun _ _ hok => hok.1)
  obtain ⟨hsane, hspent⟩ : Sane c w ∧ Spent w := by
    refine hr.invariant (P := fun w => Sane c w ∧ Spent w) ?_ ?_
    · rintro s ⟨cmd, rfl⟩
      exact ⟨⟨inv_init c cmd, running_init cmd⟩, spent_init cmd⟩
    · rintro s l t ⟨hsane, hspent⟩ hu hs
      exact ⟨sane_step hsane hu hs, spent_step hnone hsane hspent hs⟩
  -- the behaviour that gets there and stops
  obtain ⟨s, ms, hinit, hms⟩ := hr
  have hend := hms.within.play_end (Nat.le_refl ms.length)
  obtain ⟨u, hu, hserved⟩ := hserves hms.within.trace (by rw [hms.within.trace_zero]; exact hinit)
    (fun p => hms.within.trace_fair fun l hl => hblocked.no_step hl) n ms.length
    (by show n < ((undisturbed c).play s ms ms.length).arrivals; rw [hend, harrivals]; omega)
  have hstate : hms.within.trace.state u = w := hms.within.play_end hu
  rw [hstate] at hserved
  have hacc := hsane.1.accepted_of_served hblocked.parent hserved
  rw [hsane.1.mem_accepted] at hacc
  exact absurd (hsane.1.accepted_le hblocked.parent hspent) (by omega)

/--
**Every client is served in every fair behaviour, exactly if `select` looks at
the channel of some worker.**

With two workers or more it does, however they are numbered
(`serves_everyone_of_two`).
-/
theorem serves_everyone_iff (c : Numbering n) :
    ServesEveryone c ↔ ∃ i, c.pipe i < c.server.maxfdp := by
  constructor
  · intro hserves
    by_contra hnone
    exact not_serves_everyone (not_exists.mp hnone) hserves
  · rintro ⟨i, hi⟩
    exact serves_everyone_of_examined hi

end TcpServer.Proof
