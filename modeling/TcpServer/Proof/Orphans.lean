import TcpServer.Model.Orphans
import TcpServer.Lib.Count
import TcpServer.Proof.Plumbing

/-!
# No worker outlives the parent for good

End-of-file does not reach all workers at once: worker `0` does not see it while
any other worker lives, because each of them holds a copy of the parent's end of
its channel. But copies are inherited in one direction. Worker `i` waits only
for workers dispatched after it, the last one for nobody, and so on down: a
group of workers that all wait would have a last one (`no_waiting_group`).

So when nothing can happen any more everybody has exited, and since every step
uses up some of what the workers have left (`left_step`), that point is reached
whatever the order of their steps.
-/

namespace TcpServer.Proof

open TcpServer Orphans

variable {k : Nat}

/-! ## Who holds what -/

/-- A worker holds the parent's end of earlier channels only, and in its prologue of its own. -/
theorem parentDied_step {s t : Orphans k} {a : Fin k × WorkerCall} (h : ParentDied s)
    (hs : Step s a t) : ParentDied t := by
  intro j i hi
  cases hs with
  | @plumb w hpc =>
      by_cases hj : j = w
      · subst hj
        rw [Function.update_self] at hi ⊢
        obtain ⟨hne, hmem⟩ := Finset.mem_erase.mp hi
        rcases h j i hmem with hlt | ⟨heq, _⟩
        · exact .inl hlt
        · exact absurd heq hne
      · rw [Function.update_of_ne hj] at hi ⊢
        exact h j i hi
  | @eof w hpc | @recv w _ _ _ hpc | @callback w hpc | @callbackRet w hpc | @close w hpc
  | @report w hpc | @killed w hpc =>
      by_cases hj : j = w
      · subst hj
        rw [Function.update_self] at hi ⊢
        rcases h j i hi with hlt | ⟨_, hpro⟩
        · exact .inl hlt
        · rw [hpc] at hpro; cases hpro
      · rw [Function.update_of_ne hj] at hi ⊢
        exact h j i hi

theorem parentDied_reachable {s : Orphans k} (h : (Orphans.lts k).Reachable Lts.Any s) :
    ParentDied s := by
  refine h.invariant ?_ ?_
  · intro s hs; exact hs
  · intro s a t hp _ hs; exact parentDied_step hp (step_cases hs)

/-- It is what dispatching leaves: the ends in the tables of the forked workers, past their
prologue. -/
theorem parentDied_of_dispatch {s : Orphans k} {sock : Nat} {fds₁ : Descriptors (File k)}
    {p : Fin k → Dispatching k} {ls : Fin k → List DispatchCall} (h₁ : AtDispatch sock fds₁)
    (hrun : ∀ j, (Dispatching.lts (Listener.listen sock) fds₁).Run LowestFirst
      (Dispatching.start (Listener.listen sock) fds₁) (ls j) (p j))
    (hpc : ∀ j, (p j).pc = .routine j)
    (hends : ∀ j, ∀ i ∈ (s j).ends, ∃ fd, (p j).fds.get fd = some (.parentEnd i)) :
    ParentDied s := by
  intro j i hi
  obtain ⟨fd, hfd⟩ := hends j i hi
  exact .inl (parentEnd_of_routine (preparing_run h₁ (hrun j)) (hpc j) hfd)

/-! ## When nobody can go on -/

/-- The worker has not exited. -/
def Alive (s : Orphans k) (i : Fin k) : Prop := (s i).proc.gone = false

/-- The worker waits for a message or for end-of-file, and somebody keeps the latter from it. -/
def Waits (s : Orphans k) (i : Fin k) : Prop :=
  (s i).proc.pc = .reading ∧ s.hasPeer i = true

/-- Everywhere else it can go on. -/
theorem waits_of_stuck {s : Orphans k} {i : Fin k} (hgone : Alive s i)
    (hstuck : ∀ c, s.step (i, c) = none) : Waits s i := by
  cases hpc : (s i).proc.pc with
  | prologue =>
      exact absurd (hstuck .plumb) (by simp [step, WorkerProc.step, kernel, hpc])
  | serving =>
      exact absurd (hstuck (.callback (s i).proc.conn))
        (by simp [step, WorkerProc.step, kernel, hpc])
  | inCallback =>
      exact absurd (hstuck .callbackRet) (by simp [step, WorkerProc.step, kernel, hpc])
  | closing =>
      exact absurd (hstuck (.close (s i).proc.conn))
        (by simp [step, WorkerProc.step, kernel, hpc])
  | reporting =>
      exact absurd (hstuck (.write cmdDone)) (by simp [step, WorkerProc.step, kernel, hpc])
  | stopped | hungUp | dead => simp [Alive, WorkerProc.gone, hpc] at hgone
  | reading =>
      refine ⟨hpc, ?_⟩
      cases hin : (s i).inbox with
      | cons m ms =>
          -- the message can be received, without its descriptor at the least
          exact absurd (hstuck (.ipcFdRead (.got m.byte (-1))))
            (by simp [step, WorkerProc.step, kernel, hpc, hin])
      | nil =>
          cases hpeer : s.hasPeer i with
          | true => rfl
          | false =>
              exact absurd (hstuck (.ipcFdRead .eof))
                (by simp [step, WorkerProc.step, kernel, hpc, hin, hpeer])

/-- **It waits for a worker dispatched after it.** -/
theorem Waits.exists_later {s : Orphans k} (h : ParentDied s) {i : Fin k} (hw : Waits s i) :
    ∃ j, i < j ∧ Alive s j := by
  obtain ⟨hread, hpeer⟩ := hw
  obtain ⟨j, halive, hend⟩ := hasPeer_iff.mp hpeer
  rcases h j i hend with hlt | ⟨rfl, hpro⟩
  · exact ⟨j, hlt, halive⟩
  · rw [hread] at hpro; cases hpro

/-- In a finite order, a set in which everybody has somebody above is empty. -/
theorem no_waiting_group {P : Fin k → Prop} (h : ∀ i, P i → ∃ j, i < j ∧ P j) (i : Fin k) :
    ¬ P i := by
  -- from the last worker down
  induction i using WellFoundedGT.induction with
  | ind i ih =>
      intro hi
      obtain ⟨j, hlt, hj⟩ := h i hi
      exact ih j hlt hj

theorem gone_of_stuck {s : Orphans k} (h : ParentDied s) (hstuck : ∀ a, s.step a = none)
    (i : Fin k) : (s i).proc.gone = true := by
  have hnone : ¬ Alive s i := by
    refine no_waiting_group ?_ i
    intro j hj
    exact (waits_of_stuck hj fun c => hstuck (j, c)).exists_later h
  exact Bool.eq_true_of_not_eq_false hnone

/--
**When no worker can take a step, all have exited.**

Whatever each was doing when the parent died, and however their steps were
interleaved since.
-/
theorem no_orphans {s : Orphans k} (h : (Orphans.lts k).Reachable Lts.Any s)
    (hstuck : ∀ a, s.step a = none) : ∀ i, (s i).proc.gone = true :=
  gone_of_stuck (parentDied_reachable h) hstuck

theorem step_eq_none_of_gone {s : Orphans k} {i : Fin k} (h : (s i).proc.gone = true)
    (c : WorkerCall) : s.step (i, c) = none := by
  cases hs : s.step (i, c) with
  | none => rfl
  | some t =>
      exfalso
      cases step_cases hs with
      | plumb hpc | eof hpc | recv hpc | callback hpc | callbackRet hpc | close hpc | report hpc
      | killed hpc => simp [WorkerProc.gone, hpc] at h

/-- Two workers, each with a job: one is at it, the other has not received it yet. -/
def twoJobs (i : Fin 2) : Node where
  proc := ⟨if i.val = 0 then .inCallback else .reading, cmdConn, 5⟩
  fds := [(5, 0)]
  inbox := if i.val = 0 then [] else [⟨cmdConn, some 1⟩]
  outbox := []
  reaped := false
  log := ⟨[], [], [], []⟩

/-- The first worker reports, as the second one still holds the other end; that one's report kills
it, and only then the first reads end-of-file. -/
theorem no_orphans_twoJobs :
    ∃ s : Orphans 2, ((s 0).proc.pc = .hungUp ∧ (s 1).proc.pc = .dead) ∧
      ∀ i, (s i).proc.gone = true := by
  obtain ⟨s, hrun, h0, h1⟩ : ∃ s : Orphans 2,
      (Orphans.lts 2).Run Lts.Any (ofNodes twoJobs)
        [(0, .callbackRet), (0, .close 5), (0, .write cmdDone),
          (1, .ipcFdRead (.got cmdConn 6)), (1, .callback 6), (1, .callbackRet), (1, .close 6),
          (1, .write cmdDone), (0, .ipcFdRead .eof)] s ∧
        (s 0).proc.pc = .hungUp ∧ (s 1).proc.pc = .dead :=
    Lts.exists_run_of_exec (by decide +kernel)
  refine ⟨s, ⟨h0, h1⟩, no_orphans ⟨_, _, parentDied_ofNodes twoJobs, hrun⟩ ?_⟩
  rw [Prod.forall, Fin.forall_fin_two]
  refine ⟨fun c => step_eq_none_of_gone ?_ c, fun c => step_eq_none_of_gone ?_ c⟩
  · simp [WorkerProc.gone, h0]
  · simp [WorkerProc.gone, h1]

/-! ## Running down -/

/-- What a worker's own loop has left to do before it waits again, or exits. -/
def pcLeft : WorkerPc → Nat
  | .prologue => 2
  | .reading => 1
  | .serving => 5
  | .inCallback => 4
  | .closing => 3
  | .reporting => 2
  | .stopped | .hungUp | .dead => 0

/-- What a worker has left: a message is at most one job. -/
def left (o : Orphan k) : Nat := pcLeft o.proc.pc + 5 * o.inbox.length

theorem pcLeft_dispatchCmd (p : WorkerProc) : pcLeft p.dispatchCmd.pc ≤ 5 := by
  unfold WorkerProc.dispatchCmd
  split
  · exact Nat.zero_le _
  · split
    · exact Nat.le_of_ble_eq_true rfl
    · exact Nat.le_refl _

/-- **Every step takes from what the workers have left.** -/
theorem left_step {s t : Orphans k} {a : Fin k × WorkerCall} (hs : Step s a t) :
    ∑ j, left (t j) < ∑ j, left (s j) := by
  have hupdate : ∀ (i : Fin k) (o : Orphan k), left o < left (s i) →
      ∑ j, left (Function.update s i o j) < ∑ j, left (s j) := by
    intro i o hlt
    have hsum := PointUpdate.sum_comp_update left s i o
    omega
  cases hs with
  | @recv i m ms recvfd hpc hin hfd =>
      refine hupdate i _ ?_
      have hbefore : left (s i) = 1 + 5 * (ms.length + 1) := by simp [left, hpc, hin, pcLeft]
      have hjob := pcLeft_dispatchCmd { (s i).proc with cmd := m.byte, conn := recvfd }
      rw [hbefore, left]
      dsimp only at hjob ⊢
      omega
  | @plumb i hpc | @eof i hpc | @callback i hpc | @callbackRet i hpc | @close i hpc
  | @report i hpc | @killed i hpc =>
      refine hupdate i _ ?_
      simp [left, hpc, pcLeft]

/-- No order of steps keeps the workers busy for longer than what they have left. -/
theorem length_le_left {s t : Orphans k} {ls : List (Fin k × WorkerCall)}
    (h : (Orphans.lts k).Run Lts.Any s ls t) : ls.length ≤ ∑ j, left (s j) := by
  induction h with
  | nil => exact Nat.zero_le _
  | cons _ hs _ ih =>
      have hlt := left_step (step_cases hs)
      rw [List.length_cons]
      omega

/-- **From the parent's death on, the workers come to an end**, all of them. -/
theorem orphans_run_out {s : Orphans k} (h : ParentDied s) :
    ∃ ls t, (Orphans.lts k).Run Lts.Any s ls t ∧ ∀ i, (t i).proc.gone = true := by
  refine Lts.exists_run_of_measure (fun s => ∑ j, left (s j)) ?_ ?_ ?_ h
  · intro s a t hp _ hs
    exact parentDied_step hp (step_cases hs)
  · intro s a t _ _ hs
    exact left_step (step_cases hs)
  · intro s hp hnot
    by_contra hstuck
    refine hnot (gone_of_stuck hp ?_)
    intro a
    cases hs : s.step a with
    | none => rfl
    | some t =>
        refine absurd ⟨a, trivial, ?_⟩ hstuck
        show (s.step a).isSome = true
        rw [hs]
        rfl

end TcpServer.Proof
