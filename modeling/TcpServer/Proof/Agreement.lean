import TcpServer.Proof.Phase

/-!
# The parent's books and the workers agree

The parent keeps one status and one counter for its workers; what the workers
are really doing is spread over `n` processes and the messages between them.
`Inv` ties the two together: every worker is in a phase its status allows, the
counter is the number of ready workers, and what the parent is holding fits the
place its control has reached.

`inv_step` is the one induction step; `inv_reachable` is what everything about
the system without faults is read off from.
-/

namespace TcpServer.Proof

open TcpServer World

variable {n : Nat}

/-- `'s'` has been sent to worker `i`. -/
def stopSent : Pc n → Fin n → Bool
  | .terminating is, i => i ∉ is
  | .waiting, _ => true
  | .returned, _ => true
  | _, _ => false

/-- The parent holds no connection: all it accepted are handed over and closed. -/
def Settled (w : World n) : Prop :=
  w.fds = [] ∧ w.submitted.map Prod.fst = w.accepted ∧ w.parentClosed = w.accepted

/-- What the parent holds and knows at each place of its control. -/
def Control (w : World n) : Pc n → Prop
  | .inSelect rset => rset = w.parent.self.selectSet ∧ Settled w
  | .selected _ rset => rset ⊆ w.parent.self.selectSet ∧ Settled w
  | .accepting _ _ => 0 < w.parent.self.wp.availWorkersN ∧ Settled w
  | .submitting conn _ _ =>
      0 < w.parent.self.wp.availWorkersN ∧
        ∃ k, w.fds = [(conn, k)] ∧ w.accepted = w.parentClosed ++ [k] ∧
          w.submitted.map Prod.fst = w.parentClosed
  | .closing conn _ _ =>
      ∃ k, w.fds = [(conn, k)] ∧ w.accepted = w.parentClosed ++ [k] ∧
        w.submitted.map Prod.fst = w.accepted
  | .terminating is => is.Nodup ∧ Settled w
  | .returned => (∀ i, (w.node i).reaped = true) ∧ Settled w
  | .overrun => False
  | .killed => False
  | _ => Settled w

/-- The invariant of the system without faults. -/
structure Inv (c : Numbering n) (w : World n) : Prop where
  /-- The parent watches what it was dispatched with. -/
  layout : Parent.SameLayout (Parent.start c.server) w.parent
  /-- Every worker is in a phase that fits its entry in the pool. -/
  phase : ∀ i, Phase (stopSent w.parent.pc i) (w.sentTo i) (w.worker i).status (w.node i)
  /-- The counter is the number of ready workers. -/
  avail : w.parent.self.wp.availWorkersN = w.parent.self.wp.readyCount
  /-- Each worker's counter is the number of connections it was handed. -/
  count : ∀ i, (w.worker i).count = (w.sentTo i).length
  control : Control w w.parent.pc
  /-- Clients are accepted in the order they arrived. -/
  arrived : w.accepted ++ w.backlog = List.range w.arrivals

/-! ## The starting state -/

theorem inv_init (c : Numbering n) (cmd : Fin n → UInt8) : Inv c (World.start c cmd) where
  layout := .refl _
  phase := by
    intro i
    show Phase false [] (c.server.wp.worker i).status (Node.start (cmd i))
    rw [c.server_worker i]
    exact phase_start (cmd i)
  avail := by
    show c.server.wp.availWorkersN = c.server.wp.readyCount
    rw [c.server_avail, c.server_readyCount]
  count := by
    intro i
    show (c.server.wp.worker i).count = 0
    rw [c.server_worker i]
  control := ⟨rfl, rfl, rfl⟩
  arrived := rfl

/-! ## Steps that touch neither the pool nor a worker -/

/-- Moving control keeps the invariant if no stop is sent and the new place fits. -/
theorem Inv.moved {c : Numbering n} {w : World n} (h : Inv c w) {pc : Pc n} {flag : Bool}
    (hstop : ∀ i, stopSent pc i = stopSent w.parent.pc i) (hctl : Control w pc) :
    Inv c { w with parent := { w.parent with pc := pc, serverStop := flag } } where
  layout := h.layout.trans ⟨rfl, rfl, rfl, fun _ => rfl⟩
  phase := by
    intro i
    have hi := h.phase i
    rw [← hstop i] at hi
    exact hi
  avail := h.avail
  count := h.count
  control := hctl
  arrived := h.arrived

/-- No stop has been sent anywhere in the loop. -/
theorem stopSent_afterClose (nsel : Int) (rset : Finset Nat) (i : Fin n) :
    stopSent (Parent.afterClose nsel rset : Pc n) i = false := by
  unfold Parent.afterClose
  split <;> rfl

theorem stopSent_afterRead (is : List (Fin n)) (nsel : Int) (rset : Finset Nat) (i : Fin n) :
    stopSent (Parent.afterRead is nsel rset : Pc n) i = false := by
  unfold Parent.afterRead
  split <;> rfl

theorem control_afterClose {w : World n} {nsel : Int} {rset : Finset Nat} (h : Settled w) :
    Control w (Parent.afterClose nsel rset) := by
  unfold Parent.afterClose
  split <;> exact h

theorem control_afterRead {w : World n} {is : List (Fin n)} {nsel : Int} {rset : Finset Nat}
    (h : Settled w) : Control w (Parent.afterRead is nsel rset) := by
  unfold Parent.afterRead
  split <;> exact h

/-- Wherever a stop has not been sent to `i`, worker `i` has not ended. -/
theorem Inv.not_gone {c : Numbering n} {w : World n} (h : Inv c w) {i : Fin n}
    (hstop : stopSent w.parent.pc i = false) : (w.node i).proc.gone = false := by
  have hi := h.phase i
  rw [hstop] at hi
  exact hi.not_gone

/-! ## The three things the parent does to a worker -/

/-- **Handing over a connection.** -/
theorem inv_submit {c : Numbering n} {w : World n} (h : Inv c w) {i : Fin n} {conn nsel : Int}
    {rset : Finset Nat} {k : Conn} (hpc : w.parent.pc = .submitting conn nsel rset)
    (hi : w.parent.self.wp.findReady = some i) (hfds : w.fds = [(conn, k)])
    (hacc : w.accepted = w.parentClosed ++ [k])
    (hsub : w.submitted.map Prod.fst = w.parentClosed) :
    Inv c { w.setNode i ((w.node i).push ⟨cmdConn, some k⟩) with
      submitted := w.submitted ++ [(k, i)]
      parent := { w.parent.setPool (w.parent.self.wp.markBusy i) with
        pc := .closing conn nsel rset } } := by
  have hready := WorkerPool.findReady_some hi
  have hstop : ∀ j, stopSent w.parent.pc j = false := by intro j; rw [hpc]; rfl
  exact
    { layout := h.layout.trans ⟨rfl, rfl, rfl, fun j => WorkerPool.markBusy_pipefd _ _ j⟩
      phase := by
        intro j
        have hj := h.phase j
        rw [hstop j] at hj
        show Phase false (handedTo (w.submitted ++ [(k, i)]) j)
          ((w.parent.self.wp.markBusy i).worker j).status
          (Function.update w.node i ((w.node i).push ⟨cmdConn, some k⟩) j)
        by_cases hji : j = i
        · subst hji
          rw [handedTo_snoc_self, WorkerPool.markBusy_status_self, Function.update_self]
          exact phase_submit (by rw [← hready]; exact hj) k
        · rw [handedTo_snoc_ne _ _ hji, WorkerPool.markBusy_ne _ hji, Function.update_of_ne hji]
          exact hj
      avail := by
        have hc := WorkerPool.readyCount_markBusy hready
        have ha := h.avail
        show w.parent.self.wp.availWorkersN - 1 = ((w.parent.self.wp.markBusy i).readyCount : Int)
        omega
      count := by
        intro j
        show ((w.parent.self.wp.markBusy i).worker j).count
          = (handedTo (w.submitted ++ [(k, i)]) j).length
        by_cases hji : j = i
        · subst hji
          rw [handedTo_snoc_self, WorkerPool.markBusy_count_self, h.count j, List.length_append]
          rfl
        · rw [handedTo_snoc_ne _ _ hji, WorkerPool.markBusy_ne _ hji]
          exact h.count j
      control := by
        refine ⟨k, hfds, hacc, ?_⟩
        show (w.submitted ++ [(k, i)]).map Prod.fst = w.accepted
        rw [hacc, ← hsub]
        simp
      arrived := h.arrived }

/-- **Reading a completion.** -/
theorem inv_collect {c : Numbering n} {w : World n} (h : Inv c w) {i : Fin n}
    {is : List (Fin n)} {nsel : Int} {rset : Finset Nat} {b : UInt8} {bs : List UInt8}
    (hpc : w.parent.pc = .scanning (i :: is) nsel rset) (hout : (w.node i).outbox = b :: bs) :
    Inv c { w.setNode i { w.node i with outbox := bs } with
      parent := { w.parent.setPool (w.parent.self.wp.markFree i) with
        pc := Parent.afterRead is nsel rset } } := by
  have hstop : ∀ j, stopSent w.parent.pc j = false := by intro j; rw [hpc]; rfl
  have hctl := h.control
  rw [hpc] at hctl
  have hi := h.phase i
  rw [hstop i] at hi
  obtain ⟨hbusy, hfree⟩ := phase_collect hi hout
  exact
    { layout := h.layout.trans ⟨rfl, rfl, rfl, fun j => WorkerPool.markFree_pipefd _ _ j⟩
      phase := by
        intro j
        have hj := h.phase j
        rw [hstop j] at hj
        rw [stopSent_afterRead]
        show Phase false (w.sentTo j) ((w.parent.self.wp.markFree i).worker j).status
          (Function.update w.node i { w.node i with outbox := bs } j)
        by_cases hji : j = i
        · subst hji
          rw [WorkerPool.markFree_status_self, Function.update_self]
          exact hfree
        · rw [WorkerPool.markFree_ne _ hji, Function.update_of_ne hji]
          exact hj
      avail := by
        have hc := WorkerPool.readyCount_markFree w.parent.self.wp i
        have hne : ¬ (w.parent.self.wp.worker i).status = 0 := by rw [hbusy]; decide
        rw [if_neg hne] at hc
        have ha := h.avail
        show w.parent.self.wp.availWorkersN + 1 = ((w.parent.self.wp.markFree i).readyCount : Int)
        omega
      count := by
        intro j
        show ((w.parent.self.wp.markFree i).worker j).count = _
        rw [WorkerPool.markFree_count]
        exact h.count j
      control := control_afterRead hctl
      arrived := h.arrived }

/-- **Sending `'s'`.** -/
theorem inv_stop {c : Numbering n} {w : World n} (h : Inv c w) {i : Fin n} {is : List (Fin n)}
    (hpc : w.parent.pc = .terminating (i :: is)) :
    Inv c { w.setNode i ((w.node i).push ⟨cmdStop, none⟩) with
      parent := { w.parent with pc := .terminating is } } := by
  have hctl := h.control
  rw [hpc] at hctl
  obtain ⟨hnd, hset⟩ := hctl
  obtain ⟨hi, hnd⟩ := List.nodup_cons.mp hnd
  exact
    { layout := h.layout.trans ⟨rfl, rfl, rfl, fun _ => rfl⟩
      phase := by
        intro j
        have hj := h.phase j
        rw [hpc] at hj
        show Phase (stopSent (.terminating is) j) (w.sentTo j) (w.worker j).status
          (Function.update w.node i ((w.node i).push ⟨cmdStop, none⟩) j)
        by_cases hji : j = i
        · subst hji
          have hbefore : stopSent (.terminating (j :: is) : Pc n) j = false := by simp [stopSent]
          have hafter : stopSent (.terminating is : Pc n) j = true := by simp [stopSent, hi]
          rw [hbefore] at hj
          rw [hafter, Function.update_self]
          exact phase_stop hj
        · have hsame : stopSent (.terminating is : Pc n) j
              = stopSent (.terminating (i :: is)) j := by simp [stopSent, hji]
          rw [hsame, Function.update_of_ne hji]
          exact hj
      avail := h.avail
      count := h.count
      control := ⟨hnd, hset⟩
      arrived := h.arrived }

/-! ## The induction step -/

theorem control_afterTest {c : Numbering n} {w : World n} (h : Inv c w) {nsel : Int}
    {rset : Finset Nat} (hpc : w.parent.pc = .selected nsel rset) :
    (∀ i, stopSent (w.parent.afterTest nsel rset) i = false) ∧
      Control w (w.parent.afterTest nsel rset) := by
  have hctl := h.control
  rw [hpc] at hctl
  obtain ⟨hsub, hset⟩ := hctl
  unfold Parent.afterTest
  split
  · exact ⟨fun i => by simp [stopSent], List.nodup_finRange n, hset⟩
  · split
    · rename_i hmem
      exact ⟨fun _ => rfl, Server.avail_pos_of_mem_selectSet (hsub hmem), hset⟩
    · exact ⟨fun _ => rfl, hset⟩

theorem control_afterSignal {w : World n} {pc : Pc n} (hctl : Control w pc) :
    (∀ i, stopSent (Parent.afterSignal pc) i = stopSent pc i) ∧
      Control w (Parent.afterSignal pc) := by
  cases pc with
  | inSelect rset => exact ⟨fun _ => rfl, by rw [hctl.1], hctl.2⟩
  | _ => exact ⟨fun _ => rfl, hctl⟩

/-- **Every call of the parent keeps the invariant.** -/
theorem inv_parent {c : Numbering n} {w k : World n} {p : Parent n} {call : Call n}
    (h : Inv c w) (hs : Parent.Step w.parent call p) (hk : World.Answer w call k) :
    Inv c { k with parent := p } := by
  have hctl := h.control
  cases hs with
  | enter hpc =>
      cases hk
      rw [hpc] at hctl
      exact h.moved (by intro i; rw [hpc]; rfl) hctl
  | test hpc =>
      cases hk
      obtain ⟨hstop, hctl'⟩ := control_afterTest h hpc
      exact h.moved (by intro i; rw [hpc]; exact hstop i) hctl'
  | overrun hpc hnone =>
      -- the counter is positive, so the search cannot come back empty
      exfalso
      rw [hpc] at hctl
      have hpos := hctl.1
      rw [h.avail] at hpos
      obtain ⟨i, hi⟩ := WorkerPool.findReady_isSome (by omega : 0 < w.parent.self.wp.readyCount)
      rw [hi] at hnone
      exact absurd hnone (by simp)
  | scanned hpc =>
      cases hk
      rw [hpc] at hctl
      exact h.moved (by intro i; rw [hpc]; rfl) hctl
  | skip hpc hfd =>
      cases hk
      rw [hpc] at hctl
      exact h.moved (by intro i; rw [hpc]; rfl) hctl
  | stopped hpc =>
      cases hk
      rw [hpc] at hctl
      exact h.moved (by intro i; rw [hpc]; simp [stopSent]) hctl.2
  | select hpc =>
      cases hk
      rw [hpc] at hctl
      exact h.moved (by intro i; rw [hpc]; rfl) ⟨rfl, hctl⟩
  | ready hpc hsub hne =>
      cases hk
      rw [hpc] at hctl
      refine h.moved (by intro i; rw [hpc]; rfl) ⟨?_, hctl.2⟩
      rw [← hctl.1]; exact hsub
  | failed hpc => cases hk
  | @accept conn nsel rset hpc =>
      cases hk with
      | @accept _ k₀ cs hback hfree hnew =>
          rw [hpc] at hctl
          obtain ⟨hpos, hfds, hsub, hclosed⟩ := hctl
          exact
            { layout := h.layout.trans ⟨rfl, rfl, rfl, fun _ => rfl⟩
              phase := by
                intro i
                have hi := h.phase i
                rw [hpc] at hi
                exact hi
              avail := h.avail
              count := h.count
              control := by
                refine ⟨hpos, k₀, ?_, ?_, ?_⟩
                · show (conn, k₀) :: w.fds = [(conn, k₀)]
                  rw [hfds]
                · show w.accepted ++ [k₀] = w.parentClosed ++ [k₀]
                  rw [hclosed]
                · show w.submitted.map Prod.fst = w.parentClosed
                  rw [hsub, hclosed]
              arrived := by
                have harr := h.arrived
                rw [hback] at harr
                show (w.accepted ++ [k₀]) ++ cs = List.range w.arrivals
                rw [← harr]
                simp }
  | @submit i conn nsel rset ret hpc hi hret =>
      cases hk with
      | @sent _ _ _ k₀ halive hlook =>
          rw [hpc] at hctl
          obtain ⟨_, k₁, hfds, hacc, hsub⟩ := hctl
          -- the descriptor names the connection the parent holds
          have hlook₁ : w.fds.lookup conn = some k₁ := by rw [hfds]; exact List.lookup_cons_self
          rw [hlook] at hlook₁
          cases hlook₁
          exact inv_submit h hpc hi hfds hacc hsub
      | notSent hgone => exact absurd rfl hret
  | @submitKilled i conn nsel rset hpc hi =>
      have halive := h.not_gone (i := i) (by rw [hpc]; rfl)
      cases hk with
      | notSent hgone => exact absurd hgone (by simp [halive])
  | @close conn nsel rset hpc =>
      cases hk
      rw [hpc] at hctl
      obtain ⟨k₀, hfds, hacc, hsub⟩ := hctl
      have hlook : w.fds.lookup conn = some k₀ := by rw [hfds]; exact List.lookup_cons_self
      have hset : Settled { w with
          fds := w.fds.close conn
          parentClosed := w.parentClosed ++ (w.fds.lookup conn).toList } := by
        refine ⟨?_, hsub, ?_⟩
        · show w.fds.close conn = []
          rw [hfds]; exact close_single conn k₀
        · show w.parentClosed ++ (w.fds.lookup conn).toList = w.accepted
          rw [hlook, hacc]; rfl
      exact
        { layout := h.layout.trans ⟨rfl, rfl, rfl, fun _ => rfl⟩
          phase := by
            intro i
            have hi := h.phase i
            rw [hpc] at hi
            rw [stopSent_afterClose]
            exact hi
          avail := h.avail
          count := h.count
          control := control_afterClose hset
          arrived := h.arrived }
  | @readEof i is nsel rset hpc hfd =>
      -- nobody has ended, so nobody has hung up
      have halive := h.not_gone (i := i) (by rw [hpc]; rfl)
      cases hk with
      | hungUp hout hgone _ => exact absurd hgone (by simp [halive])
  | @free i is nsel rset ret hpc hfd hret =>
      have halive := h.not_gone (i := i) (by rw [hpc]; rfl)
      cases hk with
      | byte hout => exact inv_collect h hpc hout
      | hungUp hout hgone _ => exact absurd hgone (by simp [halive])
  | @stop i is ret hpc hret =>
      cases hk with
      | written halive => exact inv_stop h hpc
      | notWritten hgone => exact absurd rfl hret
  | @stopKilled i is hpc =>
      have halive := h.not_gone (i := i) (by rw [hpc]; simp [stopSent])
      cases hk with
      | notWritten hgone => exact absurd hgone (by simp [halive])
  | @reap i hpc =>
      rw [hpc] at hctl
      cases hk with
      | reaped hgone hnot =>
          exact
            { layout := h.layout
              phase := forall_setNode
                (fun j nd => Phase (stopSent w.parent.pc j) (w.sentTo j) (w.worker j).status nd)
                (phase_reap (h.phase i) hgone) (fun j _ => h.phase j)
              avail := h.avail
              count := h.count
              control := by rw [hpc]; exact hctl
              arrived := h.arrived }
  | ret hpc =>
      rw [hpc] at hctl
      cases hk with
      | noChildren hall => exact h.moved (by intro i; rw [hpc]; rfl) ⟨hall, hctl⟩
  | sigint =>
      cases hk
      obtain ⟨hstop, hctl'⟩ := control_afterSignal hctl
      exact h.moved hstop hctl'

/-- A worker's step does not change whether it has been reaped. -/
theorem node_step_reaped {nd nd' : Node} {call : WorkerCall} (h : nd.step call = some nd') :
    nd'.reaped = nd.reaped := by
  cases Node.step_cases h <;> rfl

/-- **Every call of a worker keeps the invariant.** -/
theorem inv_worker {c : Numbering n} {w : World n} {i : Fin n} {call : WorkerCall} {nd : Node}
    (h : Inv c w) (hs : (w.node i).step call = some nd) : Inv c (w.setNode i nd) where
  layout := h.layout
  phase := forall_setNode
    (fun j nd => Phase (stopSent w.parent.pc j) (w.sentTo j) (w.worker j).status nd)
    (phase_worker (h.phase i) hs) (fun j _ => h.phase j)
  avail := h.avail
  count := h.count
  control := by
    have hctl := h.control
    show Control (w.setNode i nd) w.parent.pc
    cases hpc : w.parent.pc with
    | returned =>
        rw [hpc] at hctl
        have hi : nd.reaped = true := by rw [node_step_reaped hs]; exact hctl.1 i
        exact ⟨forall_setNode (fun _ nd => nd.reaped = true) hi (fun j _ => hctl.1 j), hctl.2⟩
    | _ => rw [hpc] at hctl; exact hctl
  arrived := h.arrived

/-- **The invariant is preserved by every step without a fault.** -/
theorem inv_step {c : Numbering n} {w w' : World n} {l : Label n} (h : Inv c w)
    (hok : l.faultFree = true) (hs : w.step l = some w') : Inv c w' := by
  cases l with
  | parent call =>
      obtain ⟨p, k, hp, hk, rfl⟩ := World.step_parent hs
      exact inv_parent h hp hk
  | worker i call =>
      obtain ⟨nd, hnd, rfl⟩ := World.step_worker hs
      exact inv_worker h hnd
  | arrive =>
      cases hs
      exact
        { layout := h.layout
          phase := h.phase
          avail := h.avail
          count := h.count
          control := by
            have hctl := h.control
            show Control _ w.parent.pc
            cases hpc : w.parent.pc <;> rw [hpc] at hctl <;> exact hctl
          arrived := by
            show w.accepted ++ (w.backlog ++ [w.arrivals]) = List.range (w.arrivals + 1)
            rw [List.range_succ, ← h.arrived, List.append_assoc] }
  | die i => exact absurd hok (by simp [Label.faultFree])
  | stderr i b => exact absurd hok (by simp [Label.faultFree])

/-- Runs without faults. -/
def FaultFree (_ : World n) (l : Label n) : Prop := l.faultFree = true

instance (w : World n) (l : Label n) : Decidable (FaultFree w l) :=
  inferInstanceAs (Decidable (_ = true))

theorem inv_reachable {c : Numbering n} {w : World n}
    (h : (World.lts c).Reachable FaultFree w) : Inv c w := by
  refine h.invariant ?_ inv_step
  rintro s ⟨cmd, rfl⟩
  exact inv_init c cmd

end TcpServer.Proof
