import TcpServer.Model.Dispatch
import TcpServer.Proof.Quiescence

/-!
# What dispatching leaves behind

If every call goes through, `tcp_server_dispatch` returns with one open channel
for each worker (`wired_run`), and what it leaves is what `Server.dispatch`
computes (`dispatch_refines`).

If one fails, nothing says so. `socketpair` is not checked at all, and the test
of `fork` is `> 0`, so a failed `fork` takes the parent into the worker routine.
`tcp_server_dispatch` has one `return`, and it returns `0`.

The last section is about `maxfdp`, which dispatching folds the new descriptors
into without adding one.
-/

namespace TcpServer.Proof

open TcpServer

variable {n : Nat}

/-- The workers whose channel is not made yet. -/
def remaining : DispatchPc n → List (Fin n)
  | .looping is => is
  | .forking i is _ _ => i :: is
  | .returned _ | .routine _ => []

/-- In the process that called `tcp_server_dispatch`, `fork` does not return `0`. -/
def ParentSide (_ : Dispatching n) (c : DispatchCall) : Prop := c ≠ .fork 0

instance (p : Dispatching n) (c : DispatchCall) : Decidable (ParentSide p c) :=
  inferInstanceAs (Decidable (_ ≠ _))

/-- A `fork` that does not fail takes the process that called it past the test. -/
theorem forked {p : Dispatching n} {pid : Int} (hparent : ParentSide p (.fork pid))
    (hno : ¬ (DispatchCall.fork pid).Fails) : ¬ (pid = 0 ∨ pid = -1) := by
  intro hpid
  rcases hpid with rfl | rfl
  · exact hparent rfl
  · exact hno (by decide : (-1 : Int) < 0)

/-- The call has ended, or never will. -/
def Ended (p : Dispatching n) : Prop :=
  match p.pc with
  | .returned _ | .routine _ => True
  | _ => False

/-! ## If no call fails -/

/-- Every worker dispatched so far has an open channel of its own. -/
structure Wired (p : Dispatching n) : Prop where
  nodup : (remaining p.pc).Nodup
  inParent : ∀ i, p.pc ≠ .routine i
  pipes : ∀ i, i ∉ remaining p.pc →
    p.fds.get (p.self.wp.worker i).pipefd = some (.parentEnd i)
  /-- The channel just made. -/
  pair : ∀ i is a b, p.pc = .forking i is a b →
    p.fds.get a = some (.parentEnd i) ∧ p.fds.get b = some (.childEnd i)

theorem wired_start (self : Listener) (fds : Descriptors (File n)) :
    Wired (Dispatching.start self fds) where
  nodup := List.nodup_finRange n
  inParent := by intro i h; cases h
  pipes := by intro i hi; exact absurd (List.mem_finRange i) hi
  pair := by intro i is a b h; cases h

/-- A descriptor that is open is not one that has just been handed out. -/
theorem get_pair_of_open {φ : Type} {fds : Descriptors φ} {a b fd : Nat} {f g h : φ}
    (ha : fds.get a = none) (hb : fds.get b = none) (hfd : fds.get fd = some f) :
    ((fds.install a g).install b h).get fd = some f := by
  have hopen : fds.get fd ≠ none := by rw [hfd]; simp
  rw [Descriptors.get_install_ne _ _ (Descriptors.ne_of_free hb hopen).symm,
    Descriptors.get_install_ne _ _ (Descriptors.ne_of_free ha hopen).symm]
  exact hfd

theorem wired_step {p q : Dispatching n} {c : DispatchCall} (h : Wired p)
    (hparent : ParentSide p c) (hno : ¬ c.Fails) (hs : Dispatching.Step p c q) : Wired q := by
  have hnd := h.nodup
  have hpipes := h.pipes
  cases hs with
  | @paired i is a b hpc hab ha hb =>
      rw [hpc] at hnd hpipes
      refine ⟨hnd, (by intro j hj; cases hj), ?_, ?_⟩
      · intro j hj
        exact get_pair_of_open ha hb (hpipes j hj)
      · intro j js a' b' hj
        cases hj
        refine ⟨?_, Descriptors.get_install_self _ _ _⟩
        rw [Descriptors.get_install_ne _ _ hab]
        exact Descriptors.get_install_self _ _ _
  | unpaired hpc => exact absurd rfl hno
  | @parent i is a b pid hpc hpid =>
      obtain ⟨hga, hgb⟩ := h.pair i is a b hpc
      rw [hpc] at hnd hpipes
      refine ⟨(List.nodup_cons.mp hnd).2, (by intro j hj; cases hj), ?_,
        (by intro _ _ _ _ hj; cases hj)⟩
      intro j hj
      by_cases hji : j = i
      · subst hji
        have hab : a ≠ b := by intro heq; rw [← heq, hga] at hgb; cases hgb
        show (p.fds.close b).get ((p.entered j a pid).worker j).pipefd = _
        rw [Dispatching.entered_pipefd_self, Descriptors.get_close_ne _ hab]
        exact hga
      · have hgj := hpipes j (by
          intro hmem
          rcases List.mem_cons.mp hmem with heq | hmem
          · exact hji heq
          · exact hj hmem)
        have hne : (p.self.wp.worker j).pipefd ≠ b := by
          intro heq
          rw [heq, hgb] at hgj
          cases hgj
        show (p.fds.close b).get ((p.entered i a pid).worker j).pipefd = _
        rw [Dispatching.entered_ne p a pid hji, Descriptors.get_close_ne _ hne]
        exact hgj
  | @routine i is a b pid hpc hpid =>
      exact absurd hpid (forked hparent hno)
  | signal hpc =>
      rw [hpc] at hpipes
      exact ⟨List.nodup_nil, (by intro j hj; cases hj), hpipes, (by intro _ _ _ _ hj; cases hj)⟩

/-- **Dispatching without a failure gives every worker an open channel of its own.** -/
theorem wired_run {self : Listener} {fds : Descriptors (File n)} {p : Dispatching n}
    {ls : List DispatchCall}
    (h : (Dispatching.lts self fds).Run ParentSide (Dispatching.start self fds) ls p)
    (hno : ∀ c ∈ ls, ¬ c.Fails) : Wired p := by
  refine (h.restrict hno).invariant ?_ (wired_start self fds)
  intro p c q hw hok hs
  exact wired_step hw hok.1 hok.2 (Dispatching.step_cases hs)

/-- If it has returned, then `0`. -/
def ReturnsZero (p : Dispatching n) : Prop := ∀ ret, p.pc = .returned ret → ret = 0

/-- There is no other `return`. -/
theorem returned_run {self : Listener} {fds : Descriptors (File n)} {p : Dispatching n}
    {ls : List DispatchCall}
    (h : (Dispatching.lts self fds).Run ParentSide (Dispatching.start self fds) ls p) :
    ReturnsZero p := by
  refine h.invariant ?_ ?_
  · intro p c q hp _ hs ret hret
    cases Dispatching.step_cases hs with
    | signal hpc => cases hret; rfl
    | _ => cases hret
  · intro ret hret
    cases hret

/-! ## The loop, call by call and in one go -/

/-- The loop asks about the workers it dispatches only. -/
theorem dispatchLoop_congr {sp sp' : Fin n → Spawn} {is : List (Fin n)}
    (h : ∀ i ∈ is, sp i = sp' i) (s : Server n) :
    Server.dispatchLoop sp is s = Server.dispatchLoop sp' is s := by
  induction is generalizing s with
  | nil => rfl
  | cons i is ih =>
      rw [Server.dispatchLoop, Server.dispatchLoop, h i List.mem_cons_self]
      cases s.wp.dispatchWorker i (sp' i) with
      | none => rfl
      | some wp => exact ih (fun j hj => h j (List.mem_cons_of_mem _ hj)) _

/-- What is left to do in `p` makes `s` of its server object, for some results of `socketpair` and
`fork`; the numbers that `socketpair` has returned already are among them. -/
def Makes (p : Dispatching n) (s : Server n) : Prop :=
  match p.pc with
  | .looping is => ∃ sp : Fin n → Spawn, (∀ i, 0 < (sp i).pid) ∧
      Server.dispatchLoop sp is p.self = some s
  | .forking i is a b => ∃ sp : Fin n → Spawn, (∀ j, 0 < (sp j).pid) ∧
      (sp i).sockfd0 = a ∧ (sp i).sockfd1 = b ∧ Server.dispatchLoop sp (i :: is) p.self = some s
  | .returned _ => p.self = s
  | .routine _ => False

theorem makes_step {p q : Dispatching n} {c : DispatchCall} {s : Server n}
    (hnd : (remaining p.pc).Nodup) (hparent : ParentSide p c) (hno : ¬ c.Fails)
    (hs : Dispatching.Step p c q) (h : Makes q s) : Makes p s := by
  cases hs with
  | @paired i is a b hpc hab ha hb =>
      obtain ⟨sp, hpid, _, _, hloop⟩ := h
      rw [Makes, hpc]
      exact ⟨sp, hpid, hloop⟩
  | unpaired hpc => exact absurd rfl hno
  | @parent i is a b pid hpc hpid =>
      obtain ⟨sp, hpids, hloop⟩ := h
      rw [hpc] at hnd
      have hi : i ∉ is := (List.nodup_cons.mp hnd).1
      have hsp : ∀ j ∈ is, Function.update sp i ⟨a, b, pid⟩ j = sp j := by
        intro j hj
        have hji : j ≠ i := by intro heq; rw [heq] at hj; exact hi hj
        exact Function.update_of_ne hji ..
      rw [Makes, hpc]
      refine ⟨Function.update sp i ⟨a, b, pid⟩, ?_, by simp, by simp, ?_⟩
      · intro j
        by_cases hji : j = i
        · subst hji; simpa using hpid
        · rw [Function.update_of_ne hji]; exact hpids j
      · rw [Server.dispatchLoop, Function.update_self, WorkerPool.dispatchWorker, if_pos hpid]
        simp only [WorkerPool.workerFdSet, WorkerPool.workerFdGet, Function.update_self]
        rw [dispatchLoop_congr hsp]
        exact hloop
  | @routine i is a b pid hpc hpid =>
      exact absurd hpid (forked hparent hno)
  | signal hpc =>
      rw [Makes, hpc]
      refine ⟨fun _ => ⟨0, 0, 1⟩, fun _ => Int.one_pos, ?_⟩
      rw [← h]
      rfl

/-- **The server object that dispatching leaves is the one `Server.dispatch` computes.** -/
theorem dispatch_refines {self : Listener} {fds : Descriptors (File n)} {p : Dispatching n}
    {ls : List DispatchCall}
    (h : (Dispatching.lts self fds).Run ParentSide (Dispatching.start self fds) ls p)
    (hno : ∀ c ∈ ls, ¬ c.Fails) {ret : Int} (hret : p.pc = .returned ret) :
    ∃ sp : Fin n → Spawn, (∀ i, 0 < (sp i).pid) ∧ Server.dispatch self sp = some p.self := by
  have hmakes : ∀ {p q : Dispatching n} {ls},
      (Dispatching.lts self fds).Run (fun p c => ParentSide p c ∧ ¬ c.Fails) p ls q → Wired p →
        q.pc = .returned ret → Makes p q.self := by
    intro p q ls h
    induction h with
    | nil p => intro _ hpc; rw [Makes, hpc]
    | cons hok hs _ ih =>
        intro hw hq
        have hstep := Dispatching.step_cases hs
        exact makes_step hw.nodup hok.1 hok.2 hstep (ih (wired_step hw hok.1 hok.2 hstep) hq)
  exact hmakes (h.restrict hno) (wired_start self fds) hret

/-! ## What should be reported -/

/-- What dispatching should leave after a failure: `-1`, with the standard streams and the
listening socket as they were, and nothing entered but channels that exist. -/
structure ReportedFailure (p₀ p : Dispatching n) : Prop where
  ret : p.pc = .returned (-1)
  streams : ∀ fd, fd ≤ stderrFileno ∨ fd = p₀.self.sockFd → p₀.fds.get fd ≠ none →
    p.fds.get fd = p₀.fds.get fd
  entries : ∀ i, (p.self.wp.worker i).pid ≠ 0 →
    p.fds.get (p.self.wp.worker i).pipefd = some (.parentEnd i)
  members : ∀ fd ∈ p.self.masterset,
    fd = p₀.self.sockFd ∨ ∃ i, p.fds.get fd = some (.parentEnd i)

/-- What it should leave without one. -/
structure AllDispatched (p : Dispatching n) : Prop where
  ret : p.pc = .returned 0
  channels : ∀ i, p.fds.get (p.self.wp.worker i).pipefd = some (.parentEnd i)
  distinct : ∀ i j, (p.self.wp.worker i).pipefd = (p.self.wp.worker j).pipefd → i = j

/-- Both, for the calls `ls` that led from `p₀` to `p`. -/
structure DispatchReports (p₀ : Dispatching n) (ls : List DispatchCall) (p : Dispatching n) :
    Prop where
  failed : (∃ c ∈ ls, c.Fails) → ReportedFailure p₀ p
  dispatched : (∀ c ∈ ls, ¬ c.Fails) → AllDispatched p

/--
**Dispatching reports what happened exactly if nothing failed.**

`ls` is any sequence of outcomes of `socketpair` and `fork` that takes the
calling process to where it stays: back in its caller, or in the worker routine.
-/
theorem dispatch_reports_iff {self : Listener} {fds : Descriptors (File n)} {p : Dispatching n}
    {ls : List DispatchCall}
    (h : (Dispatching.lts self fds).Run ParentSide (Dispatching.start self fds) ls p)
    (hend : Ended p) :
    DispatchReports (Dispatching.start self fds) ls p ↔ ∀ c ∈ ls, ¬ c.Fails := by
  constructor
  · intro hreports c hc hfails
    have hret := (hreports.failed ⟨c, hc, hfails⟩).ret
    exact absurd (returned_run h _ hret) (by decide)
  · intro hno
    have hw := wired_run h hno
    have hret : ∃ ret, p.pc = .returned ret := by
      unfold Ended at hend
      split at hend
      · rename_i ret hpc; exact ⟨ret, hpc⟩
      · rename_i i hpc; exact absurd hpc (hw.inParent i)
      · exact absurd hend id
    obtain ⟨ret, hpc⟩ := hret
    have hpipes : ∀ i, p.fds.get (p.self.wp.worker i).pipefd = some (.parentEnd i) := by
      intro i
      refine hw.pipes i ?_
      rw [hpc]
      exact List.not_mem_nil
    refine ⟨?_, fun _ => ⟨?_, hpipes, ?_⟩⟩
    · intro hsome
      rcases hsome with ⟨c, hc, hfails⟩
      exact absurd hfails (hno c hc)
    · rw [hpc, returned_run h ret hpc]
    · intro i j hij
      have hi := hpipes i
      rw [hij, hpipes j] at hi
      cases hi
      rfl

/-- The table of a process with its standard streams open and the listening socket on `3`. -/
def usualTable (n : Nat) : Descriptors (File n) :=
  (((Descriptors.empty.install 0 (.app 0)).install 1 (.app 1)).install 2 (.app 2)).install 3
    .listening

theorem dispatch_reports_iff_oneWorker :
    ∃ p : Dispatching 1, p.self.masterset = {3, 4} ∧
      DispatchReports (Dispatching.start (Listener.listen 3) (usualTable 1))
        [.socketpair (some (4, 5)), .fork 7, .signal] p := by
  obtain ⟨p, hrun, hset, hend⟩ : ∃ p : Dispatching 1,
      (Dispatching.lts (Listener.listen 3) (usualTable 1)).Run ParentSide
        (Dispatching.start (Listener.listen 3) (usualTable 1))
        [.socketpair (some (4, 5)), .fork 7, .signal] p ∧
        p.self.masterset = {3, 4} ∧ p.pc = .returned 0 :=
    Lts.exists_run_of_exec (by decide +kernel)
  refine ⟨p, hset, (dispatch_reports_iff hrun ?_).mpr (by decide)⟩
  simp [Ended, hend]

/-- When the process limit is reached the parent itself goes on as the worker. -/
theorem failed_fork_enters_routine :
    ¬ ∀ (n : Nat) (self : Listener) (fds : Descriptors (File n)) (ls : List DispatchCall)
      (p : Dispatching n), 1 ≤ n →
      (Dispatching.lts self fds).Run ParentSide (Dispatching.start self fds) ls p → Ended p →
      DispatchReports (Dispatching.start self fds) ls p := by
  intro hevery
  obtain ⟨p, hrun, hpc⟩ : ∃ p : Dispatching 1,
      (Dispatching.lts (Listener.listen 3) (usualTable 1)).Run ParentSide
        (Dispatching.start (Listener.listen 3) (usualTable 1))
        [.socketpair (some (4, 5)), .fork (-1)] p ∧ p.pc = .routine solo :=
    Lts.exists_run_of_exec (by decide +kernel)
  have hret := ((hevery 1 _ _ _ p (by decide) hrun (by simp [Ended, hpc])).failed
    ⟨.fork (-1), by decide, by decide⟩).ret
  rw [hpc] at hret
  cases hret

/-! ## The descriptors `select` examines -/

/--
**Everything registered is examined exactly if the channels are numbered below
the listening socket.**
-/
theorem registered_examined_iff (c : Numbering n) :
    (∀ d ∈ c.server.masterset, d < c.server.maxfdp) ↔ ∀ i, c.pipe i < c.sockFd := by
  constructor
  · intro hall
    by_contra habove
    obtain ⟨m, hm⟩ := exists_unexamined habove
    exact hm (hall _ ((c.mem_masterset _).mpr (.inr ⟨m, rfl⟩)))
  · intro hbelow d hd
    rw [c.lt_maxfdp]
    rcases (c.mem_masterset d).mp hd with rfl | ⟨i, rfl⟩
    · exact .inl (Nat.le_refl _)
    · exact .inl (Nat.le_of_lt (hbelow i))

/-- The channel on `4` after the listening socket on `3`: the bound stays at `4`. -/
theorem channel_not_examined :
    ¬ ∀ (n : Nat) (c : Numbering n), 1 ≤ n → ∀ d ∈ c.server.masterset, d < c.server.maxfdp := by
  intro hevery
  have hlt := hevery 1 .oneWorker (by decide) 4
    ((Numbering.mem_masterset .oneWorker 4).mpr (.inr ⟨solo, rfl⟩))
  rw [Numbering.lt_maxfdp] at hlt
  revert hlt
  decide +kernel

end TcpServer.Proof
