import TcpServer.Proof.Deaths

/-!
# One death starves the workers behind it

`worker_pool_workers_find_free` visits the workers in the order of the array and
leaves its loop at the first one whose channel is at its end. A dead worker's
channel is never taken out of the set, so a `select` that reports all that is
readable reports it in every turn from then on. The workers before it go on as
ever. The completions of those behind it are never read again, so the parent
holds each of them as busy after one more connection at most
(`death_starves_behind`): a server whose first worker has died hands on no more
connections than it has ready workers at that moment, and then none.
-/

namespace TcpServer.Proof

open TcpServer World

variable {n : Nat} {c : Numbering n} {w w' : World n} {d : Fin n}

/-- `select` reports exactly what is readable, and a read of worker `d`'s channel does not fail.
Anything else may happen, faults and signals included. -/
def attentive (d : Fin n) (w : World n) : Label n → Bool
  | .parent (.selectRet (some ready)) =>
      match w.parent.pc with
      | .inSelect rset => ready = w.reported rset
      | _ => false
  | .parent (.read i ret) => i ≠ d ∨ ret ≠ .err
  | _ => true

/-- Worker `d`, whose channel is `pipe`, has been reported if anything has, and is still to be
visited. -/
def StillToVisit (pipe : Nat) (d : Fin n) : Pc n → Prop
  | .inSelect rset | .selected _ rset | .accepting _ rset | .submitting _ _ rset
  | .closing _ _ rset => pipe ∈ rset
  | .scanning is _ rset => pipe ∈ rset ∧ d ∈ is ∧ is.Pairwise (· < ·)
  | _ => True

/-- Worker `d` has ended and all it wrote has been read. -/
structure HasHungUp (nd : Node) : Prop where
  gone : nd.proc.gone = true
  outbox : nd.outbox = []

/-- What holds from the first turn on that begins after the death. -/
structure Haunted (c : Numbering n) (d : Fin n) (w : World n) : Prop where
  layout : Parent.SameLayout (Parent.start c.server) w.parent
  hungUp : HasHungUp (w.node d)
  toVisit : StillToVisit (c.pipe d) d w.parent.pc

/-! ## The turn -/

section Turn

variable {pipe : Nat} {nsel : Int} {rset : Finset Nat}

theorem toVisit_finRange (h : pipe ∈ rset) :
    StillToVisit pipe d (.scanning (List.finRange n) nsel rset) :=
  ⟨h, List.mem_finRange d, List.pairwise_lt_finRange n⟩

theorem toVisit_afterTest {p : Parent n} (h : pipe ∈ rset) :
    StillToVisit pipe d (p.afterTest nsel rset) := by
  unfold Parent.afterTest
  split
  · trivial
  · split
    · exact h
    · exact toVisit_finRange h

theorem toVisit_afterClose (h : pipe ∈ rset) :
    StillToVisit (n := n) pipe d (Parent.afterClose nsel rset) := by
  unfold Parent.afterClose
  split
  · trivial
  · exact toVisit_finRange h

theorem toVisit_afterRead {is : List (Fin n)} (h : StillToVisit pipe d (.scanning is nsel rset)) :
    StillToVisit pipe d (Parent.afterRead is nsel rset) := by
  unfold Parent.afterRead
  split
  · trivial
  · exact h

theorem toVisit_afterSignal {pc : Pc n} (h : StillToVisit pipe d pc) :
    StillToVisit pipe d (Parent.afterSignal pc) := by
  cases pc with
  | _ => exact h

/-- If the next to be visited is not `d`, it comes before `d`. -/
theorem StillToVisit.head {i : Fin n} {is : List (Fin n)}
    (h : StillToVisit pipe d (.scanning (i :: is) nsel rset)) (hne : i ≠ d) :
    i < d ∧ StillToVisit pipe d (.scanning is nsel rset) := by
  obtain ⟨hset, hmem, hsorted⟩ := h
  obtain ⟨hlt, hsorted⟩ := List.pairwise_cons.mp hsorted
  have hin : d ∈ is := by
    rcases List.mem_cons.mp hmem with heq | hin
    · exact absurd heq.symm hne
    · exact hin
  exact ⟨hlt d hin, hset, hin, hsorted⟩

end Turn

/-! ## The dead worker -/

theorem HasHungUp.step {nd nd' : Node} {call : WorkerCall} (h : HasHungUp nd)
    (hs : nd.step call = some nd') : HasHungUp nd' := by
  rw [Node.Stuck.step_eq_none (.inl h.gone)] at hs
  cases hs

/-- Another worker's state is replaced. -/
theorem Haunted.setNode (h : Haunted c d w) (i : Fin n) (nd : Node)
    (hnd : HasHungUp (w.node i) → HasHungUp nd) : Haunted c d (w.setNode i nd) where
  layout := h.layout
  hungUp := forall_setNode (fun j nd => HasHungUp (w.node j) → HasHungUp nd) hnd
    (fun _ _ hj => hj) d h.hungUp
  toVisit := h.toVisit

/-- It is readable for ever. -/
theorem Haunted.readable (h : Haunted c d w) : w.Readable (c.pipe d) :=
  .inr ⟨d, (h.layout.pipefd_eq d).symm, .inr h.hungUp.gone⟩

/-- A `select` that returns reports it. -/
theorem Haunted.mem_reported {rset : Finset Nat} (h : Haunted c d w)
    (hd : c.pipe d < c.server.maxfdp) (hset : c.pipe d ∈ rset) : c.pipe d ∈ w.reported rset := by
  have hmax : w.parent.self.maxfdp = c.server.maxfdp := h.layout.maxfdp
  exact Finset.mem_filter.mpr ⟨hset, by rw [hmax]; exact hd, h.readable⟩

/-- Nothing the parent reads off a channel can be its. -/
theorem Haunted.ne_of_read {u : World n} {i : Fin n} {ret : ReadRet} (h : Haunted c d w)
    (hok : attentive d w (.parent (.read i ret)) = true) (hk : World.Answer w (.read i ret) u)
    (hret : ret ≠ .eof) : i ≠ d := by
  rintro rfl
  have herr : ret ≠ .err := by simpa [attentive] using hok
  cases hk with
  | byte hout =>
      rw [h.hungUp.outbox] at hout
      cases hout
  | hungUp hout hgone hor =>
      rcases hor with rfl | rfl
      · exact hret rfl
      · exact herr rfl

/-! ## What the others can still get -/

/-- The connections handed to worker `j`, and one more if it is held as ready. -/
def mayGet (w : World n) (j : Fin n) : Nat :=
  (w.sentTo j).length + if (w.worker j).status = 0 then 1 else 0

/-- Nothing was handed to worker `d`, and nothing to a worker behind it that it was not ready
for to begin with. -/
structure NoGain (d : Fin n) (w w' : World n) : Prop where
  dead : w'.sentTo d = w.sentTo d
  later : ∀ j, d < j → mayGet w' j ≤ mayGet w j

theorem NoGain.refl (d : Fin n) (w : World n) : NoGain d w w := ⟨rfl, fun _ _ => Nat.le_refl _⟩

theorem NoGain.trans {w'' : World n} (h₁ : NoGain d w w') (h₂ : NoGain d w' w'') :
    NoGain d w w'' where
  dead := h₂.dead.trans h₁.dead
  later := fun j hj => (h₂.later j hj).trans (h₁.later j hj)

/-- Nothing is handed over, and no worker behind `d` becomes ready. -/
theorem NoGain.of_submitted (hsub : w'.submitted = w.submitted)
    (hready : ∀ j, d < j → (w'.worker j).status = 0 → (w.worker j).status = 0) :
    NoGain d w w' := by
  refine ⟨by rw [World.sentTo, hsub], ?_⟩
  intro j hj
  unfold mayGet World.sentTo
  rw [hsub]
  have himp := hready j hj
  split
  · rename_i hs
    rw [if_pos (himp hs)]
  · split <;> omega

/-- A hand-over takes from worker `i` what it gives. -/
theorem noGain_submit {i : Fin n} {k : Conn} {pc : Pc n} {nd : Node}
    (hi : w.parent.self.wp.findReady = some i) (hne : i ≠ d) :
    NoGain d w { w.setNode i nd with
      submitted := w.submitted ++ [(k, i)]
      parent := { w.parent.setPool (w.parent.self.wp.markBusy i) with pc := pc } } where
  dead := handedTo_snoc_ne _ _ hne.symm
  later := by
    intro j _
    show (handedTo (w.submitted ++ [(k, i)]) j).length
        + (if ((w.parent.self.wp.markBusy i).worker j).status = 0 then 1 else 0) ≤ mayGet w j
    have hready := WorkerPool.findReady_some hi
    by_cases hji : j = i
    · subst hji
      rw [handedTo_snoc_self, WorkerPool.markBusy_status_self, mayGet, World.worker, if_pos hready,
        List.length_append]
      simp
    · rw [handedTo_snoc_ne _ _ hji, WorkerPool.markBusy_ne _ hji]
      exact Nat.le_refl _

/-! ## Every step -/

/-- **A call of the parent gives nothing to those behind the dead worker.** -/
theorem haunted_parent {u : World n} {p : Parent n} {call : Call n} (h : Haunted c d w)
    (hd : c.pipe d < c.server.maxfdp) (hok : attentive d w (.parent call) = true)
    (hs : Parent.Step w.parent call p) (hk : World.Answer w call u) :
    Haunted c d { u with parent := p } ∧ NoGain d w { u with parent := p } := by
  have hl := h.layout.trans hs.layout
  have hvisit := h.toVisit
  cases hs with
  | enter hpc | scanned hpc | stopped hpc | overrun hpc hnone =>
      cases hk
      exact ⟨⟨hl, h.hungUp, trivial⟩, .of_submitted rfl fun _ _ => id⟩
  | test hpc =>
      cases hk
      rw [hpc] at hvisit
      exact ⟨⟨hl, h.hungUp, toVisit_afterTest hvisit⟩, .of_submitted rfl fun _ _ => id⟩
  | @skip i is nsel rset hpc hfd =>
      cases hk
      rw [hpc] at hvisit
      have hne : i ≠ d := by
        rintro rfl
        rw [h.layout.pipefd_eq] at hfd
        exact hfd hvisit.1
      exact ⟨⟨hl, h.hungUp, (hvisit.head hne).2⟩, .of_submitted rfl fun _ _ => id⟩
  | select hpc =>
      cases hk
      have hmem := h.layout.pipe_mem_selectSet d
      rw [h.layout.pipefd_eq] at hmem
      exact ⟨⟨hl, h.hungUp, hmem⟩, .of_submitted rfl fun _ _ => id⟩
  | @ready rset ready hpc hsub hne =>
      have heq : ready = w.reported rset := by simpa [attentive, hpc] using hok
      cases hk
      rw [hpc] at hvisit
      refine ⟨⟨hl, h.hungUp, ?_⟩, .of_submitted rfl fun _ _ => id⟩
      rw [heq]
      exact h.mem_reported hd hvisit
  | failed hpc => cases hk
  | accept hpc =>
      cases hk
      rw [hpc] at hvisit
      exact ⟨⟨hl, h.hungUp, hvisit⟩, .of_submitted rfl fun _ _ => id⟩
  | @submit i conn nsel rset ret hpc hi hret =>
      cases hk with
      | notSent hgone => exact absurd rfl hret
      | @sent _ _ _ k halive hlook =>
          rw [hpc] at hvisit
          have hne : i ≠ d := by
            rintro rfl
            rw [h.hungUp.gone] at halive
            cases halive
          have hnode := h.setNode i ((w.node i).push ⟨cmdConn, some k⟩) fun hi => ⟨hi.1, hi.2⟩
          exact ⟨⟨hl, hnode.hungUp, hvisit⟩, noGain_submit hi hne⟩
  | @submitKilled i conn nsel rset hpc hi =>
      cases hk
      refine ⟨⟨hl, h.hungUp, trivial⟩, .of_submitted rfl ?_⟩
      intro j _ hj
      by_cases hji : j = i
      · subst hji
        exact WorkerPool.findReady_some hi
      · rw [World.worker, ← WorkerPool.markBusy_ne _ hji]
        exact hj
  | close hpc =>
      cases hk
      rw [hpc] at hvisit
      exact ⟨⟨hl, h.hungUp, toVisit_afterClose hvisit⟩, .of_submitted rfl fun _ _ => id⟩
  | readEof hpc hfd =>
      cases hk
      exact ⟨⟨hl, h.hungUp, trivial⟩, .of_submitted rfl fun _ _ => id⟩
  | @free i is nsel rset ret hpc hfd hret =>
      rw [hpc] at hvisit
      have hne := h.ne_of_read hok hk hret
      obtain ⟨hlt, hrest⟩ := hvisit.head hne
      -- it becomes ready again, but it comes before `d`
      have hready : ∀ j, d < j → ((w.parent.self.wp.markFree i).worker j).status = 0 →
          (w.worker j).status = 0 := by
        intro j hj hs
        have hji : j ≠ i := by
          rintro rfl
          exact absurd (hlt.trans hj) (lt_irrefl _)
        rw [WorkerPool.markFree_ne _ hji] at hs
        exact hs
      cases hk with
      | hungUp hout hgone hor =>
          exact ⟨⟨hl, h.hungUp, toVisit_afterRead hrest⟩, .of_submitted rfl hready⟩
      | @byte _ b bs hout =>
          have hnd : HasHungUp ((w.setNode i { w.node i with outbox := bs }).node d) := by
            rw [setNode_node_ne _ _ hne.symm]
            exact h.hungUp
          exact ⟨⟨hl, hnd, toVisit_afterRead hrest⟩, .of_submitted rfl hready⟩
  | @stop i is ret hpc hret =>
      cases hk with
      | notWritten hgone => exact absurd rfl hret
      | written halive =>
          have hnode := h.setNode i ((w.node i).push ⟨cmdStop, none⟩) fun hi => ⟨hi.1, hi.2⟩
          exact ⟨⟨hl, hnode.hungUp, trivial⟩, .of_submitted rfl fun _ _ => id⟩
  | stopKilled hpc =>
      cases hk
      exact ⟨⟨hl, h.hungUp, trivial⟩, .of_submitted rfl fun _ _ => id⟩
  | @reap i hpc =>
      cases hk
      have hnode := h.setNode i { w.node i with reaped := true } fun hi => ⟨hi.1, hi.2⟩
      exact ⟨⟨hl, hnode.hungUp, h.toVisit⟩, .of_submitted rfl fun _ _ => id⟩
  | ret hpc =>
      cases hk
      exact ⟨⟨hl, h.hungUp, trivial⟩, .of_submitted rfl fun _ _ => id⟩
  | sigint =>
      cases hk
      exact ⟨⟨hl, h.hungUp, toVisit_afterSignal hvisit⟩, .of_submitted rfl fun _ _ => id⟩

/-- **So does every action.** -/
theorem haunted_step {l : Label n} (h : Haunted c d w) (hd : c.pipe d < c.server.maxfdp)
    (hok : attentive d w l = true) (hs : w.step l = some w') :
    Haunted c d w' ∧ NoGain d w w' := by
  cases l with
  | parent call =>
      obtain ⟨p, u, hp, hk, rfl⟩ := World.step_parent hs
      exact haunted_parent h hd hok hp hk
  | worker i call =>
      obtain ⟨nd, hnd, rfl⟩ := World.step_worker hs
      exact ⟨h.setNode i nd fun hi => hi.step hnd, .of_submitted rfl fun _ _ => id⟩
  | arrive =>
      cases hs
      exact ⟨⟨h.layout, h.hungUp, h.toVisit⟩, .of_submitted rfl fun _ _ => id⟩
  | die i =>
      simp only [World.step, Option.ite_none_left_eq_some, Option.some.injEq] at hs
      obtain ⟨_, rfl⟩ := hs
      exact ⟨h.setNode i _ fun hi => ⟨by simp [Node.die, WorkerProc.gone], hi.outbox⟩,
        .of_submitted rfl fun _ _ => id⟩
  | stderr i b =>
      simp only [World.step, Option.ite_none_left_eq_some, Option.some.injEq] at hs
      obtain ⟨halive, rfl⟩ := hs
      -- only one that lives can write
      exact ⟨h.setNode i _ fun hi => absurd hi.gone halive, .of_submitted rfl fun _ _ => id⟩

theorem noGain_run {ls : List (Label n)} (h : Haunted c d w) (hd : c.pipe d < c.server.maxfdp)
    (hrun : (World.lts c).Run (fun w l => attentive d w l = true) w ls w') : NoGain d w w' := by
  have hboth : Haunted c d w' ∧ NoGain d w w' := by
    refine hrun.invariant (P := fun u => Haunted c d u ∧ NoGain d w u) ?_ ⟨h, .refl d w⟩
    intro s l t hs hok hst
    obtain ⟨hhaunted, hgain⟩ := haunted_step hs.1 hd hok hst
    exact ⟨hhaunted, hs.2.trans hgain⟩
  exact hboth.2

/-! ## What the death costs in the long run -/

/-- How much more is handed over from `w` to `w'` after the death of worker `d`. -/
structure Starved (d : Fin n) (w w' : World n) : Prop where
  /-- Nothing to the dead worker. -/
  dead : w'.sentTo d = w.sentTo d
  /-- To a worker behind it one connection, if it was ready, and none if it was busy. -/
  behind : ∀ j, d < j →
    (w'.sentTo j).length ≤ (w.sentTo j).length + if (w.worker j).status = 0 then 1 else 0
  /-- If it is the first, that is all. -/
  all : (∀ j, d ≤ j) → w'.submitted.length
    ≤ w.submitted.length + (Finset.univ.filter fun j => d < j ∧ (w.worker j).status = 0).card
  /-- And no more than one client beyond these is accepted. -/
  accepted : w'.accepted.length ≤ w'.submitted.length + 1

theorem NoGain.behind (h : NoGain d w w') {j : Fin n} (hj : d < j) :
    (w'.sentTo j).length
      ≤ (w.sentTo j).length + if (w.worker j).status = 0 then 1 else 0 :=
  (Nat.le_add_right _ _).trans (h.later j hj)

theorem NoGain.all (h : NoGain d w w') (hfirst : ∀ j, d ≤ j) :
    w'.submitted.length
      ≤ w.submitted.length + (Finset.univ.filter fun j => d < j ∧ (w.worker j).status = 0).card := by
  have hsum : ∑ j, (w.sentTo j).length = w.submitted.length := (abs w).sum_length_assignedTo
  have hsum' : ∑ j, (w'.sentTo j).length = w'.submitted.length := (abs w').sum_length_assignedTo
  have hle : ∀ j, (w'.sentTo j).length
      ≤ (w.sentTo j).length + if d < j ∧ (w.worker j).status = 0 then 1 else 0 := by
    intro j
    rcases (hfirst j).lt_or_eq with hlt | rfl
    · have hj := h.behind hlt
      simpa [hlt] using hj
    · rw [h.dead]
      omega
  calc w'.submitted.length
      = ∑ j, (w'.sentTo j).length := hsum'.symm
    _ ≤ ∑ j, ((w.sentTo j).length + if d < j ∧ (w.worker j).status = 0 then 1 else 0) :=
        Finset.sum_le_sum fun j _ => hle j
    _ = w.submitted.length
          + (Finset.univ.filter fun j => d < j ∧ (w.worker j).status = 0).card := by
        rw [Finset.sum_add_distrib, hsum, Finset.card_filter]

/--
**One death starves every worker behind it.**

Worker `d` has died, all it wrote has been read, and a turn begins. `select` reports
exactly what is readable and looks at `d`'s channel, which then returns end-of-file.
Whatever happens from there on, further deaths and bytes written to the workers' ends
of the channels included, until the parent writes to `worker[workers_n]` if it ever
does, nothing is handed to `d` again, and to each worker behind it one more connection
at most, if it was ready.
-/
theorem death_starves_behind (c : Numbering n) {d : Fin n} {w w' : World n} {ls : List (Label n)}
    (hw : (World.lts c).Reachable Lts.Any w) (hpc : w.parent.pc = .loopTop)
    (hgone : (w.node d).proc.gone = true) (hout : (w.node d).outbox = [])
    (hd : c.pipe d < c.server.maxfdp)
    (hrun : (World.lts c).Run (fun w l => attentive d w l = true) w ls w') : Starved d w w' := by
  have hsturdy := sturdy_reachable (hw.run (hrun.mono fun _ _ _ => trivial))
  obtain ⟨_, ms, ⟨cmd, rfl⟩, hstart⟩ := hw
  have hlayout : Parent.SameLayout (Parent.start c.server) w.parent :=
    Parent.layout_run (World.parent_run hstart)
  have hgain := noGain_run ⟨hlayout, ⟨hgone, hout⟩, by rw [hpc]; trivial⟩ hd hrun
  exact ⟨hgain.dead, fun _ => hgain.behind, hgain.all, hsturdy.hands.accepted_length_le⟩

/-- A client arrives in a turn in which `ready` is reported, and is handed to worker `i`. -/
def handTo (i : Fin 3) (ready : Finset Nat) : List (Label 3) :=
  [.parent .select, .arrive, .parent (.selectRet (some ready)), .parent .tau,
    .parent (.accept 20), .parent (.sendmsg i cmdConn 20 .ok), .parent (.close 20)]

/-- The first two workers are handed a client each, and the first dies. -/
def firstDies : List (Label 3) :=
  .parent .tau :: handTo frontWorker {3} ++ handTo middleWorker {3} ++
    [.worker frontWorker .plumb, .die frontWorker]

/-- The second is done with its client, the third is handed one, and two turns go by. -/
def turnsGoBy : List (Label 3) :=
  [.worker middleWorker .plumb, .worker middleWorker (.ipcFdRead (.got cmdConn 0)),
    .worker middleWorker (.callback 0), .worker middleWorker .callbackRet,
    .worker middleWorker (.close 0), .worker middleWorker (.write cmdDone)] ++
  handTo backWorker {3, 4, 5} ++
  [.parent (.read frontWorker .eof), .parent .select, .parent (.selectRet (some {4, 5})),
    .parent .tau, .parent (.read frontWorker .eof)]

/-- Nobody is ready any more, and the second worker's completion lies in its channel. -/
theorem death_starves_behind_turnsGoBy :
    ∃ w w' : World 3, (w.submitted.length = 2 ∧ (w.worker 2).status = 0) ∧
      (w'.submitted.length = 3 ∧ (w'.node 1).outbox = [cmdDone]) ∧ Starved 0 w w' := by
  obtain ⟨w, hrun, hpc, hgone, hout, hbefore, w', hrun', hafter⟩ : ∃ w,
      (World.lts .threeWorkers).Run Lts.Any (World.start .threeWorkers fun _ => 0) firstDies w ∧
        w.parent.pc = .loopTop ∧ (w.node 0).proc.gone = true ∧ (w.node 0).outbox = [] ∧
        (w.submitted.length = 2 ∧ (w.worker 2).status = 0) ∧
        ∃ w' ∈ (World.lts .threeWorkers).exec (fun w l => attentive 0 w l = true) w turnsGoBy,
          w'.submitted.length = 3 ∧ (w'.node 1).outbox = [cmdDone] :=
    Lts.exists_run_of_exec (by decide +kernel)
  exact ⟨w, w', hbefore, hafter,
    death_starves_behind .threeWorkers ⟨_, _, ⟨_, rfl⟩, hrun⟩ hpc hgone hout (by decide +kernel)
      (Lts.run_of_exec hrun')⟩

end TcpServer.Proof
