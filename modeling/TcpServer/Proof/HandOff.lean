import TcpServer.Proof.Scan

/-!
# A hand-over that fails

`worker_pool_workers_submit_conn` marks its worker busy before it calls
`ipc_fd_write`, and what that returns goes to `tcp_server_run`, which drops it.
What `accept` returned is not looked at either. So the branch for a new
connection leaves the same pool whether or not anything was sent
(`branch_accepting`), and a worker that was sent nothing is busy for ever: the
completion that would free it is never written.
-/

namespace TcpServer.Proof

open TcpServer

variable {n : Nat}

/-- The kernel passes no descriptor `-1`. -/
def RefusesNone : Call n → Prop
  | .sendmsg _ _ conn ret => conn = -1 → ret = .err
  | _ => True

instance : (c : Call n) → Decidable (RefusesNone c)
  | .sendmsg _ _ conn ret => inferInstanceAs (Decidable (conn = -1 → ret = .err))
  | .tau | .select | .selectRet _ | .accept _ | .close _ | .read .. | .write .. | .wait _
  | .sigint => isTrue trivial

/-- The parent is in the branch for a new connection. -/
def InBranch (p : Parent n) (c : Call n) : Prop := (serving p.pc).isSome = true ∧ RefusesNone c

instance (p : Parent n) (c : Call n) : Decidable (InBranch p c) :=
  inferInstanceAs (Decidable (_ ∧ _))

/-- `accept` returned `-1`, or `sendmsg` did. -/
def Failed : Call n → Prop
  | .accept conn => conn = -1
  | .sendmsg _ _ _ ret => ret = .err
  | _ => False

/-- The call accepts a connection or hands one over. -/
def handsOver : Call n → Bool
  | .accept _ => true
  | .sendmsg .. => true
  | _ => false

/-- The same status and count for every worker, and the same `avail_workers_n`. -/
structure SamePool (wp wp' : WorkerPool n) : Prop where
  status : ∀ i, (wp'.worker i).status = (wp.worker i).status
  count : ∀ i, (wp'.worker i).count = (wp.worker i).count
  avail : wp'.availWorkersN = wp.availWorkersN

/-- Worker `i` was ready, is busy now, and was sent nothing in between. -/
structure MarkedUnsent (p : Parent n) (ls : List (Call n)) (q : Parent n) (i : Fin n) : Prop where
  was : (p.self.wp.worker i).status = 0
  now : (q.self.wp.worker i).status = 1
  unsent : ∀ b conn, .sendmsg i b conn .ok ∉ ls

section Branch

variable {s : Server n} {p q : Parent n} {ls : List (Call n)} {conn nsel : Int} {R : Finset Nat}

/-- A branch that is over stays as it is. -/
theorem branch_over (h : (Parent.lts s).Run InBranch p ls q) (hout : serving p.pc = none) :
    ls = [] ∧ q = p := by
  cases h with
  | nil => exact ⟨rfl, rfl⟩
  | cons hok _ _ =>
      have hin := hok.1
      rw [hout] at hin
      cases hin

/-- The handler leaves the branch where it is. -/
theorem handsOver_signal {P : Call n → Prop} (h : ∀ c ∈ ls, handsOver c = true → P c) :
    ∀ c ∈ .sigint :: ls, handsOver c = true → P c := by
  intro c hc hover
  rcases List.mem_cons.mp hc with rfl | hc
  · cases hover
  · exact h c hc hover

theorem branch_closing (h : (Parent.lts s).Run InBranch p ls q) (hend : serving q.pc = none)
    (hpc : p.pc = .closing conn nsel R) :
    q.self.wp = p.self.wp ∧ ∀ c ∈ ls, handsOver c = true → False := by
  induction h with
  | nil p => rw [hpc] at hend; cases hend
  | @cons p u q l ls hok hs hrest ih =>
      rcases (Parent.step_cases hs).of_closing hpc with ⟨rfl, rfl⟩ | ⟨rfl, rfl⟩
      · have hout : serving (Parent.afterClose (n := n) nsel R) = none := by
          unfold Parent.afterClose
          split <;> rfl
        obtain ⟨rfl, rfl⟩ := branch_over hrest hout
        exact ⟨rfl, by simp [handsOver]⟩
      · obtain ⟨hpool, hnone⟩ := ih hend (by rw [Parent.signalled, hpc]; rfl)
        exact ⟨hpool, handsOver_signal hnone⟩

/-- One connection is handed to the worker that was found ready, which is then marked. -/
theorem branch_submitting {i : Fin n} (h : (Parent.lts s).Run InBranch p ls q)
    (hend : serving q.pc = none) (hpc : p.pc = .submitting conn nsel R)
    (hi : p.self.wp.findReady = some i) :
    q.self.wp = p.self.wp.markBusy i ∧
      ∃ ret, (conn = -1 → ret = .err) ∧
        ∀ c ∈ ls, handsOver c = true → c = .sendmsg i cmdConn conn ret := by
  induction h with
  | nil p => rw [hpc] at hend; cases hend
  | @cons p u q l ls hok hs hrest ih =>
      rcases (Parent.step_cases hs).of_submitting hpc hi with ⟨ret, rfl, rfl⟩ | ⟨rfl, rfl⟩
      · have hdone : q.self.wp = p.self.wp.markBusy i ∧ ∀ c ∈ ls, handsOver c = true → False := by
          by_cases hret : ret = .sigpipe
          · obtain ⟨rfl, rfl⟩ := branch_over hrest (by rw [if_pos hret]; rfl)
            exact ⟨rfl, by simp⟩
          · exact branch_closing hrest hend (if_neg hret)
        refine ⟨hdone.1, ret, hok.2, ?_⟩
        intro c hc hover
        rcases List.mem_cons.mp hc with rfl | hc
        · rfl
        · exact (hdone.2 c hc hover).elim
      · obtain ⟨hpool, ret, hnone, hsend⟩ := ih hend (by rw [Parent.signalled, hpc]; rfl) hi
        exact ⟨hpool, ret, hnone, handsOver_signal hsend⟩

/-- **The branch marks the worker it found ready, whatever became of the connection.** -/
theorem branch_accepting {i : Fin n} (h : (Parent.lts s).Run InBranch p ls q)
    (hend : serving q.pc = none) (hpc : p.pc = .accepting nsel R)
    (hi : p.self.wp.findReady = some i) :
    q.self.wp = p.self.wp.markBusy i ∧
      ∃ conn ret, (conn = -1 → ret = .err) ∧
        ∀ c ∈ ls, handsOver c = true → c = .accept conn ∨ c = .sendmsg i cmdConn conn ret := by
  induction h with
  | nil p => rw [hpc] at hend; cases hend
  | @cons p u q l ls hok hs hrest ih =>
      rcases (Parent.step_cases hs).of_accepting hpc with ⟨conn, rfl, rfl⟩ | ⟨rfl, rfl⟩
      · obtain ⟨hpool, ret, hnone, hsend⟩ := branch_submitting hrest hend rfl hi
        refine ⟨hpool, conn, ret, hnone, ?_⟩
        intro c hc hover
        rcases List.mem_cons.mp hc with rfl | hc
        · exact .inl rfl
        · exact .inr (hsend c hc hover)
      · obtain ⟨hpool, conn, ret, hnone, hsend⟩ := ih hend (by rw [Parent.signalled, hpc]; rfl) hi
        exact ⟨hpool, conn, ret, hnone, handsOver_signal hsend⟩

/-- Marking a ready worker changes its status, its count and the counter. -/
theorem not_samePool_markBusy {wp : WorkerPool n} {i : Fin n} (hi : (wp.worker i).status = 0) :
    (∃ j, ((wp.markBusy i).worker j).status ≠ (wp.worker j).status) ∧
      (∃ j, ((wp.markBusy i).worker j).count ≠ (wp.worker j).count) ∧
        (wp.markBusy i).availWorkersN ≠ wp.availWorkersN := by
  refine ⟨⟨i, ?_⟩, ⟨i, ?_⟩, ?_⟩
  · rw [WorkerPool.markBusy_status_self, hi]
    decide
  · rw [WorkerPool.markBusy_count_self]
    omega
  · rw [WorkerPool.markBusy_avail]
    omega

/--
**A failed hand-over is never undone.**

Of what should be as it was, nothing is: not every status, not every count, not
the counter. And some worker is busy with nothing to do.
-/
theorem failed_handOff_not_undone (hpc : p.pc = .accepting nsel R)
    (hready : ∃ i, (p.self.wp.worker i).status = 0) (hrun : (Parent.lts s).Run InBranch p ls q)
    (hend : serving q.pc = none) (hfail : ∃ c ∈ ls, Failed c) :
    (∃ i, (q.self.wp.worker i).status ≠ (p.self.wp.worker i).status) ∧
      (∃ i, (q.self.wp.worker i).count ≠ (p.self.wp.worker i).count) ∧
        q.self.wp.availWorkersN ≠ p.self.wp.availWorkersN ∧ ∃ i, MarkedUnsent p ls q i := by
  obtain ⟨i, hi⟩ : ∃ i, p.self.wp.findReady = some i := by
    obtain ⟨j, hj⟩ := hready
    cases hf : p.self.wp.findReady with
    | some i => exact ⟨i, rfl⟩
    | none => exact absurd hj (WorkerPool.findReady_none.mp hf j)
  have hwas := WorkerPool.findReady_some hi
  obtain ⟨hpool, conn, ret, hnone, hsend⟩ := branch_accepting hrun hend hpc hi
  -- the one call that failed decides what the hand-over returned
  have herr : ret = .err := by
    obtain ⟨c, hc, hfailed⟩ := hfail
    cases c with
    | accept fd =>
        rcases hsend _ hc rfl with heq | heq
        · cases heq; exact hnone hfailed
        · cases heq
    | sendmsg j b fd r =>
        rcases hsend _ hc rfl with heq | heq
        · cases heq
        · cases heq; exact hfailed
    | _ => exact absurd hfailed (by simp [Failed])
  obtain ⟨hstatus, hcount, havail⟩ := not_samePool_markBusy hwas
  rw [hpool]
  refine ⟨hstatus, hcount, havail, i, hwas, ?_, ?_⟩
  · rw [hpool]; exact WorkerPool.markBusy_status_self _ i
  · intro b fd hmem
    rcases hsend _ hmem rfl with heq | heq
    · cases heq
    · cases heq; cases herr

end Branch

/-- The first client's connection is aborted before `accept` gets to it. -/
def firstClient : List (Call 1) := [.tau, .select, .selectRet (some {3}), .tau]

/-- The branch then hands on what `accept` returned. -/
def acceptFails : List (Call 1) :=
  [.accept (-1), .sendmsg solo cmdConn (-1) .err, .close (-1)]

theorem failed_handOff_not_undone_acceptFails :
    ∃ p q : Parent 1, q.self.wp.availWorkersN = 0 ∧ ∃ i, MarkedUnsent p acceptFails q i := by
  obtain ⟨p, _, hpc, hready, q, hq, hend, havail⟩ : ∃ p,
      (Parent.lts Numbering.oneWorker.server).Run Lts.Any
        (Parent.start Numbering.oneWorker.server) firstClient p ∧
        p.pc = .accepting 1 {3} ∧ (∃ i, (p.self.wp.worker i).status = 0) ∧
        ∃ q ∈ (Parent.lts Numbering.oneWorker.server).exec InBranch p acceptFails,
          serving q.pc = none ∧ q.self.wp.availWorkersN = 0 :=
    Lts.exists_run_of_exec (by decide +kernel)
  obtain ⟨_, _, _, i, hi⟩ := failed_handOff_not_undone hpc hready (Lts.run_of_exec hq) hend
    ⟨.accept (-1), by decide, rfl⟩
  exact ⟨p, q, havail, i, hi⟩

/-- The only worker is taken for busy from then on. -/
theorem failed_accept_takes_worker :
    ¬ ∀ (n : Nat) (s : Server n) (p q : Parent n) (ls : List (Call n)) (nsel : Int)
      (R : Finset Nat), p.pc = .accepting nsel R → (∃ i, (p.self.wp.worker i).status = 0) →
      (Parent.lts s).Run InBranch p ls q → serving q.pc = none → (∃ c ∈ ls, Failed c) →
      SamePool p.self.wp q.self.wp := by
  intro hevery
  obtain ⟨p, _, hpc, hready, hbefore, q, hq, hend, hafter⟩ : ∃ p,
      (Parent.lts Numbering.oneWorker.server).Run Lts.Any
        (Parent.start Numbering.oneWorker.server) firstClient p ∧
        p.pc = .accepting 1 {3} ∧ (∃ i, (p.self.wp.worker i).status = 0) ∧
        p.self.wp.availWorkersN = 1 ∧
        ∃ q ∈ (Parent.lts Numbering.oneWorker.server).exec InBranch p acceptFails,
          serving q.pc = none ∧ q.self.wp.availWorkersN = 0 :=
    Lts.exists_run_of_exec (by decide +kernel)
  have hsame := (hevery 1 _ p q acceptFails 1 {3} hpc hready (Lts.run_of_exec hq) hend
    ⟨.accept (-1), by decide, rfl⟩).avail
  rw [hbefore, hafter] at hsame
  cases hsame

end TcpServer.Proof
