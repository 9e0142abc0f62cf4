import TcpServer.Proof.DeadWorker
import Mathlib.Data.List.TakeWhile

/-!
# The countdown is exact

`select` counts what it reports, `tcp_server_run` takes one off for a new
connection, and `worker_pool_workers_find_free` one for every byte it reads,
leaving its loop at zero. With a byte waiting on every reported channel the
count that is left is always the number of reported channels still to visit
(`Counted`): it is never zero while there is one, so none is skipped, and zero
after the last, so nothing further is read.

What the loop leaves is therefore what freeing the reported workers leaves, in
whatever order (`FullScan.result`).
-/

namespace TcpServer.Proof

open TcpServer

variable {n : Nat}

/-! ## The registered channels -/

/-- `masterset` holds the listening socket and the workers' channels, all of them different. -/
structure Registered (s : Server n) : Prop where
  inj : ∀ i j, (s.wp.worker i).pipefd = (s.wp.worker j).pipefd → i = j
  ne : ∀ i, (s.wp.worker i).pipefd ≠ s.sockFd
  mem : ∀ fd, fd ∈ s.masterset ↔ fd = s.sockFd ∨ ∃ i, fd = (s.wp.worker i).pipefd

/-- So it is after `tcp_server_dispatch`, and so it stays. -/
theorem registered_run {c : Numbering n} {ok : Parent n → Call n → Prop} {p : Parent n}
    {ls : List (Call n)} (h : (Parent.lts c.server).Run ok (Parent.start c.server) ls p) :
    Registered p.self := by
  have hl := Parent.layout_run h
  refine ⟨?_, ?_, ?_⟩
  · intro i j hij
    rw [hl.pipefd_eq, hl.pipefd_eq] at hij
    exact c.pipe_inj i j hij
  · intro i
    rw [hl.pipefd_eq, hl.sockFd_eq]
    exact c.pipe_ne i
  · intro fd
    rw [hl.masterset, hl.sockFd_eq]
    simp only [hl.pipefd_eq]
    exact c.mem_masterset fd

/-- The workers of `is` whose channels were reported. -/
def reportedWorkers (wp : WorkerPool n) (R : Finset Nat) (is : List (Fin n)) : List (Fin n) :=
  is.filter fun i => (wp.worker i).pipefd ∈ R

theorem mem_reportedWorkers {wp : WorkerPool n} {R : Finset Nat} {i : Fin n} :
    i ∈ reportedWorkers wp R (List.finRange n) ↔ (wp.worker i).pipefd ∈ R := by
  simp [reportedWorkers]

/-- Who is reported depends on the descriptors only. -/
theorem reportedWorkers_congr {wp wp' : WorkerPool n}
    (h : ∀ i, (wp'.worker i).pipefd = (wp.worker i).pipefd) (R : Finset Nat) (is : List (Fin n)) :
    reportedWorkers wp' R is = reportedWorkers wp R is := by
  simp only [reportedWorkers, h]

/-- **`select` counts the reported channels, and the listening socket if it is among them.** -/
theorem card_eq {s : Server n} (hreg : Registered s) {R : Finset Nat}
    (hsub : R ⊆ s.masterset) :
    R.card = (reportedWorkers s.wp R (List.finRange n)).length
      + if s.sockFd ∈ R then 1 else 0 := by
  have hnd : ((reportedWorkers s.wp R (List.finRange n)).map
      fun i => (s.wp.worker i).pipefd).Nodup :=
    ((List.nodup_finRange n).filter _).map fun i j hij => hreg.inj i j hij
  have hmem : ((reportedWorkers s.wp R (List.finRange n)).map
      fun i => (s.wp.worker i).pipefd).toFinset = R.erase s.sockFd := by
    ext fd
    simp only [List.mem_toFinset, List.mem_map, mem_reportedWorkers, Finset.mem_erase]
    constructor
    · rintro ⟨i, hi, rfl⟩
      exact ⟨hreg.ne i, hi⟩
    · rintro ⟨hne, hR⟩
      rcases (hreg.mem fd).mp (hsub hR) with hs | ⟨i, rfl⟩
      · exact absurd hs hne
      · exact ⟨i, hR, rfl⟩
  have hcard := List.toFinset_card_of_nodup hnd
  rw [hmem, List.length_map] at hcard
  by_cases hs : s.sockFd ∈ R
  · have hpos := Finset.card_pos.mpr ⟨_, hs⟩
    rw [Finset.card_erase_of_mem hs] at hcard
    rw [if_pos hs]
    omega
  · rw [Finset.erase_eq_of_notMem hs] at hcard
    rw [if_neg hs]
    omega

/-! ## The count, step by step -/

/-- What is left of the count while a turn is under way. -/
def Counted (R : Finset Nat) (p : Parent n) : Prop :=
  match p.pc with
  | .accepting nsel rset | .submitting _ nsel rset | .closing _ nsel rset =>
      rset = R ∧ nsel = (reportedWorkers p.self.wp R (List.finRange n)).length + 1
  | .scanning is nsel rset =>
      rset = R ∧ nsel = (reportedWorkers p.self.wp R is).length ∧ 1 ≤ nsel
  | .loopTop | .overrun | .killed => True
  | _ => False

theorem counted_step {out : Fin n → ReadRet} {R : Finset Nat} {p q : Parent n} {c : Call n}
    (hbyte : ∀ i, (p.self.wp.worker i).pipefd ∈ R → out i ≠ .eof)
    (h : Counted R p) (hok : InTurn out p c) (hs : Parent.Step p c q) : Counted R q := by
  unfold Counted at h
  cases hs with
  | enter hpc | test hpc | stopped hpc | ready hpc _ _ | failed hpc | stop hpc _ | stopKilled hpc
  | reap hpc | ret hpc =>
      rw [hpc] at h; exact absurd h (by simp)
  | overrun hpc _ | submitKilled hpc _ => trivial
  | select hpc => exact absurd hpc hok.1
  | @scanned nsel rset hpc =>
      rw [hpc] at h
      obtain ⟨_, hn, hpos⟩ := h
      -- the count would have stopped the loop before
      simp only [reportedWorkers, List.filter_nil, List.length_nil] at hn
      omega
  | @skip i is nsel rset hpc hfd =>
      rw [hpc] at h
      obtain ⟨rfl, hn, hpos⟩ := h
      refine ⟨rfl, ?_, hpos⟩
      rw [hn]
      simp [reportedWorkers, hfd]
  | accept hpc => rw [hpc] at h; exact h
  | @submit i conn nsel rset ret hpc hi hret =>
      rw [hpc] at h
      have hsame := reportedWorkers_congr (WorkerPool.markBusy_pipefd p.self.wp i) R
        (List.finRange n)
      exact ⟨h.1, by simp only [Parent.setPool, hsame]; exact h.2⟩
  | @close conn nsel rset hpc =>
      rw [hpc] at h
      obtain ⟨rfl, hn⟩ := h
      by_cases hlast : nsel - 1 = 0
      · simp only [Counted, Parent.afterClose, if_pos hlast]
      · simp only [Counted, Parent.afterClose, if_neg hlast]
        exact ⟨trivial, by omega, by omega⟩
  | @readEof i is nsel rset hpc hfd =>
      rw [hpc] at h
      obtain ⟨rfl, _, _⟩ := h
      exact absurd hok.2.symm (hbyte i hfd)
  | @free i is nsel rset ret hpc hfd hret =>
      rw [hpc] at h
      obtain ⟨rfl, hn, hpos⟩ := h
      have hcons : reportedWorkers p.self.wp rset (i :: is)
          = i :: reportedWorkers p.self.wp rset is := by simp [reportedWorkers, hfd]
      rw [hcons, List.length_cons] at hn
      by_cases hlast : nsel - 1 = 0
      · simp only [Counted, Parent.afterRead, if_pos hlast]
      · simp only [Counted, Parent.afterRead, if_neg hlast]
        have hsame := reportedWorkers_congr (WorkerPool.markFree_pipefd p.self.wp i) rset is
        simp only [Parent.setPool, hsame]
        exact ⟨trivial, by omega, by omega⟩
  | sigint =>
      revert h
      simp only [Counted]
      cases p.pc <;> exact id

/-- The count is right wherever a turn has got to. -/
theorem counted_run {self : Server n} {out : Fin n → ReadRet} {R : Finset Nat} {p q : Parent n}
    {ls : List (Call n)} (hbyte : ∀ i, (p.self.wp.worker i).pipefd ∈ R → out i ≠ .eof)
    (hrun : (Parent.lts self).Run (InTurn out) p ls q) (h : Counted R p) : Counted R q := by
  induction hrun with
  | nil => exact h
  | cons hok hs _ ih =>
      have hstep := Parent.step_cases hs
      have hpipe := hstep.layout.pipefd
      refine ih ?_ (counted_step hbyte h hok hstep)
      intro i hi
      rw [hpipe i] at hi
      exact hbyte i hi

/-! ## The two parts of a turn -/

/-- The pool that the branch for a new connection leaves, if there was one. -/
def handedOver (s : Server n) (R : Finset Nat) : WorkerPool n :=
  if s.sockFd ∈ R then (s.wp.workersSubmitConn.map Prod.fst).getD s.wp else s.wp

section Turn

variable {s : Server n} {out : Fin n → ReadRet} {p q : Parent n} {ls : List (Call n)}
  {R : Finset Nat}

/-- Once `SERVER_STOP` has been tested, the turn is about the reported set and its size. -/
theorem turn_enters (hpc : p.pc = .selected R.card R) (hgo : p.serverStop = false)
    (h : (Parent.lts s).Run (InTurn out) p (.tau :: ls) q) (hend : q.pc = .loopTop) :
    (p.self.sockFd ∈ R ∧ R.card = 1 ∧ readsOf (.tau :: ls) = [] ∧
        q.self.wp = handedOver p.self R) ∨
      ∃ u nsel, Enters s out p (.tau :: ls) q u nsel R ∧ u.self.wp = handedOver p.self R := by
  have htest : (Parent.lts s).step p .tau = some { p with pc := p.afterTest R.card R } :=
    Parent.step_test hpc
  obtain ⟨hok, hrest⟩ := (Lts.run_cons_iff htest).mp h
  by_cases hmem : p.self.sockFd ∈ R
  · have hafter : p.afterTest R.card R = .accepting R.card R := by
      simp [Parent.afterTest, hgo, hmem]
    rw [hafter] at htest hrest
    have hpool : submittedFrom { p with pc := .accepting R.card R } = handedOver p.self R := by
      simp only [submittedFrom, handedOver, if_pos hmem]
    rcases serve_enters hrest hend rfl with ⟨hlast, hnil, hq⟩ | ⟨_, u, hu, hq⟩
    · exact .inl ⟨hmem, by omega, hnil, hq.trans hpool⟩
    · exact .inr ⟨u, _, hu.cons hok htest rfl, hq.trans hpool⟩
  · have hafter : p.afterTest R.card R = .scanning (List.finRange n) R.card R := by
      simp [Parent.afterTest, hgo, hmem]
    rw [hafter] at htest hrest
    refine .inr ⟨_, R.card, ⟨rfl, [.tau], ls, rfl, rfl, .cons hok htest (.nil _), hrest⟩, ?_⟩
    simp only [handedOver, if_neg hmem]

/-- The count is right when the turn begins. -/
theorem counted_afterTest (hreg : Registered p.self) (hgo : p.serverStop = false)
    (hne : R.Nonempty) (hsub : R ⊆ p.self.masterset) :
    Counted R { p with pc := p.afterTest R.card R } := by
  have hcard := card_eq hreg hsub
  by_cases hmem : p.self.sockFd ∈ R
  · rw [if_pos hmem] at hcard
    simp only [Counted, Parent.afterTest, hgo, hmem, if_true, if_false, Bool.false_eq_true]
    exact ⟨trivial, by omega⟩
  · rw [if_neg hmem] at hcard
    have hpos := Finset.card_pos.mpr hne
    simp only [Counted, Parent.afterTest, hgo, hmem, if_false, Bool.false_eq_true]
    exact ⟨trivial, by omega, by omega⟩

/-- `find_free` returns. -/
theorem scan_returns (out : Fin n → ReadRet) {is : List (Fin n)} {nsel : Int}
    (hpc : p.pc = .scanning is nsel R) :
    ∃ ms r, (Parent.lts s).Run (InTurn out) p ms r ∧ r.pc = .loopTop := by
  -- one more worker is visited in each step
  induction is generalizing p nsel with
  | nil =>
      have hok : InTurn out p .tau := ⟨by simp [hpc], trivial⟩
      have hstep : (Parent.lts s).step p .tau = some { p with pc := .loopTop } := by
        show p.step .tau = _
        simp only [Parent.step, hpc]
      exact ⟨_, _, .cons hok hstep (.nil _), rfl⟩
  | cons i is ih =>
      have hturn : p.pc ≠ .loopTop := by simp [hpc]
      by_cases hfd : (p.self.wp.worker i).pipefd ∈ R
      · have hok : InTurn out p (.read i (out i)) := ⟨hturn, rfl⟩
        by_cases heof : out i = .eof
        · have hstep : (Parent.lts s).step p (.read i (out i))
              = some { p with pc := .loopTop } := by
            show p.step (.read i (out i)) = _
            simp [Parent.step, hpc, hfd, heof]
          exact ⟨_, _, .cons hok hstep (.nil _), rfl⟩
        · have hstep : (Parent.lts s).step p (.read i (out i))
              = some { p.setPool (p.self.wp.markFree i) with
                  pc := Parent.afterRead is nsel R } := by
            show p.step (.read i (out i)) = _
            simp [Parent.step, hpc, hfd, heof]
          by_cases hlast : nsel - 1 = 0
          · exact ⟨_, _, .cons hok hstep (.nil _), if_pos hlast⟩
          · have hnext : Parent.afterRead is nsel R = .scanning is (nsel - 1) R := if_neg hlast
            rw [hnext] at hstep
            obtain ⟨ms, r, hr, hend⟩ := @ih { p.setPool (p.self.wp.markFree i) with
              pc := .scanning is (nsel - 1) R } _ rfl
            exact ⟨_, r, .cons hok hstep hr, hend⟩
      · have hstep : (Parent.lts s).step p .tau = some { p with pc := .scanning is nsel R } := by
          show p.step .tau = _
          simp [Parent.step, hpc, hfd]
        have hok : InTurn out p .tau := ⟨hturn, trivial⟩
        obtain ⟨ms, r, hr, hend⟩ := @ih { p with pc := .scanning is nsel R } _ rfl
        exact ⟨_, r, .cons hok hstep hr, hend⟩

end Turn

/-! ## In any order -/

/-- Two workers can be freed in either order. -/
theorem markFree_comm (wp : WorkerPool n) (i j : Fin n) :
    (wp.markFree i).markFree j = (wp.markFree j).markFree i := by
  by_cases hij : i = j
  · subst hij; rfl
  · have hji : j ≠ i := fun h => hij h.symm
    simp only [WorkerPool.markFree, Function.update_of_ne hij, Function.update_of_ne hji]
    rw [Function.update_comm hij]

theorem foldl_markFree_perm {is js : List (Fin n)} (h : is.Perm js) (wp : WorkerPool n) :
    is.foldl WorkerPool.markFree wp = js.foldl WorkerPool.markFree wp :=
  h.foldl_eq' (fun i _ j _ w => markFree_comm w i j) wp

/-- With a byte on every reported channel the loop collects from all of them. -/
theorem collected_eq_reported {out : Fin n → ReadRet} {wp : WorkerPool n} {R : Finset Nat}
    (h : ∀ i, (wp.worker i).pipefd ∈ R → out i ≠ .eof) (is : List (Fin n)) :
    collected out wp R is = reportedWorkers wp R is := by
  refine List.takeWhile_eq_self_iff.mpr ?_
  intro i hi
  have hfd := (List.mem_filter.mp hi).2
  simpa using h i (by simpa using hfd)

/-- What the loop reads, it reads from reported channels. -/
theorem findFreeLoop_reads (out : Fin n → ReadRet) (R : Finset Nat) :
    ∀ (is : List (Fin n)) (nsel : Int) (wp : WorkerPool n),
      ∀ r ∈ (WorkerPool.findFreeLoop out R is nsel wp).2,
        (wp.worker r.1).pipefd ∈ R ∧ r.2 = out r.1 := by
  intro is
  induction is with
  | nil => intro nsel wp r hr; cases hr
  | cons i is ih =>
      intro nsel wp r hr
      unfold WorkerPool.findFreeLoop at hr
      split at hr
      · rename_i hfd
        split at hr
        · rename_i heof
          rcases List.mem_singleton.mp hr with rfl
          exact ⟨hfd, heof.symm⟩
        · split at hr
          · rcases List.mem_singleton.mp hr with rfl
            exact ⟨hfd, rfl⟩
          · rcases List.mem_cons.mp hr with rfl | hr
            · exact ⟨hfd, rfl⟩
            · have hrest := ih _ _ r hr
              rw [WorkerPool.markFree_pipefd] at hrest
              exact hrest
      · exact ih _ _ r hr

/-! ## The whole turn -/

/-- The count is right in every state of a turn. -/
theorem counted_turn {s : Server n} {out : Fin n → ReadRet} {p q : Parent n} {ls : List (Call n)}
    {R : Finset Nat} (hreg : Registered p.self) (hpc : p.pc = .selected R.card R)
    (hgo : p.serverStop = false) (hne : R.Nonempty) (hsub : R ⊆ p.self.masterset)
    (heof : ∀ i, (p.self.wp.worker i).pipefd ∈ R → out i ≠ .eof)
    (h : (Parent.lts s).Run (InTurn out) p (.tau :: ls) q) : Counted R q := by
  obtain ⟨_, hrest⟩ := (Lts.run_cons_iff (Parent.step_test hpc)).mp h
  refine counted_run ?_ hrest (counted_afterTest hreg hgo hne hsub)
  exact heof

/-- The call reads from the reported workers and frees them. -/
theorem Enters.collects {s : Server n} {out : Fin n → ReadRet} {p q u : Parent n}
    {ls : List (Call n)} {nsel : Int} {R : Finset Nat} (h : Enters s out p ls q u nsel R)
    (hend : q.pc = .loopTop) (heof : ∀ i, (p.self.wp.worker i).pipefd ∈ R → out i ≠ .eof)
    (hcount : Counted R u) :
    readsOf ls = (reportedWorkers p.self.wp R (List.finRange n)).map (fun i => (i, out i))
      ∧ q.self.wp = (reportedWorkers p.self.wp R (List.finRange n)).foldl WorkerPool.markFree
          u.self.wp := by
  obtain ⟨ls₁, ls₂, rfl, hnil, h1, h2⟩ := h.split
  have hpipe := (Parent.layout_run h1).pipefd
  have heofu : ∀ i, (u.self.wp.worker i).pipefd ∈ R → out i ≠ .eof := by
    intro i hi
    rw [hpipe i] at hi
    exact heof i hi
  rw [Counted, h.pc] at hcount
  obtain ⟨_, hn, _⟩ := hcount
  have hcov : Covers u.self.wp R (List.finRange n) nsel := .inr (Int.le_of_eq hn.symm)
  obtain ⟨hpool, hlog⟩ := findFreeLoop_collected out R _ nsel u.self.wp hcov
  have hreads := findFreeLoop_reads out R (List.finRange n) nsel u.self.wp
  have hscan := scan_run h2 hend h.pc
  rw [collected_eq_reported heofu, reportedWorkers_congr hpipe] at hpool hlog
  rw [hscan] at hpool hlog hreads
  have hall : (readsOf ls₂).filter (fun r => r.2 ≠ .eof) = readsOf ls₂ := by
    refine List.filter_eq_self.mpr ?_
    intro r hr
    obtain ⟨hfd, hout⟩ := hreads r hr
    simpa [hout] using heofu r.1 hfd
  have happend : readsOf (ls₁ ++ ls₂) = readsOf ls₂ := by
    have hboth : readsOf (ls₁ ++ ls₂) = readsOf ls₁ ++ readsOf ls₂ := List.filterMap_append
    rw [hboth, hnil, List.nil_append]
  rw [happend, ← hall]
  exact ⟨hlog, hpool⟩

/-- What a turn that began in `p` and has come to `q` by `ls` has done about the reported set. -/
structure FullScan (s : Server n) (out : Fin n → ReadRet) (R : Finset Nat) (p : Parent n)
    (ls : List (Call n)) (q : Parent n) : Prop where
  /-- The count passed on to `find_free` is the number of reported channels, and positive. -/
  passed : ∀ nsel rset, q.pc = .scanning (List.finRange n) nsel rset →
    rset = R ∧ 1 ≤ nsel ∧ nsel = (reportedWorkers p.self.wp R (List.finRange n)).length
  /-- `find_free` comes to an end. -/
  returns : ∀ is nsel rset, q.pc = .scanning is nsel rset →
    ∃ ms r, (Parent.lts s).Run (InTurn out) q ms r ∧ r.pc = .loopTop
  /-- It is called if a channel was reported. -/
  called : q.pc = .loopTop → (∃ i, (p.self.wp.worker i).pipefd ∈ R) →
    ∃ u nsel, Enters s out p ls q u nsel R
  /-- One read from each reported channel, and no other. -/
  reads : q.pc = .loopTop →
    readsOf ls = (reportedWorkers p.self.wp R (List.finRange n)).map fun i => (i, out i)
  /-- Freeing the reported workers in any order, without the early exit, does the same. -/
  result : q.pc = .loopTop → ∀ is : List (Fin n), is.Nodup →
    (∀ i, i ∈ is ↔ (p.self.wp.worker i).pipefd ∈ R) →
    q.self.wp = is.foldl WorkerPool.markFree (handedOver p.self R)

/--
**The scan with the countdown does what the full scan does.**

`R` is what `select` reported, `out` what is waiting on each channel; `p` is the
parent back from `select`, with any statuses, and `q` any state of that turn. What is
called, read and left is said of turns that come back to the top of the loop; a turn
that ends in a write to `worker[workers_n]`, or by `SIGPIPE`, reads nothing.
-/
theorem early_exit_full_scan {s : Server n} {out : Fin n → ReadRet} {R : Finset Nat}
    {p q : Parent n} {ls : List (Call n)} (hreg : Registered p.self)
    (hpc : p.pc = .selected R.card R) (hgo : p.serverStop = false) (hne : R.Nonempty)
    (hsub : R ⊆ p.self.masterset)
    (hbyte : ∀ i, (p.self.wp.worker i).pipefd ∈ R → ∃ b, out i = .byte b)
    (hturn : (Parent.lts s).Run (InTurn out) p (.tau :: ls) q) :
    FullScan s out R p (.tau :: ls) q := by
  have heof : ∀ i, (p.self.wp.worker i).pipefd ∈ R → out i ≠ .eof := by
    intro i hi
    obtain ⟨b, hb⟩ := hbyte i hi
    rw [hb]
    simp
  have hcounted := fun {ms : List (Call n)} {u : Parent n} =>
    @counted_turn n s out p u ms R hreg hpc hgo hne hsub heof
  -- the reads of a turn that is over, and the pool it leaves
  have hover : q.pc = .loopTop →
      readsOf (.tau :: ls)
          = (reportedWorkers p.self.wp R (List.finRange n)).map (fun i => (i, out i))
        ∧ q.self.wp = (reportedWorkers p.self.wp R (List.finRange n)).foldl WorkerPool.markFree
            (handedOver p.self R) := by
    intro hend
    rcases turn_enters hpc hgo hturn hend with ⟨hmem, hone, hnil, hq⟩ | ⟨u, nsel, hu, hpool⟩
    · have hcard := card_eq hreg hsub
      rw [if_pos hmem] at hcard
      have hnone : reportedWorkers p.self.wp R (List.finRange n) = [] :=
        List.length_eq_zero_iff.mp (by omega)
      rw [hnone]
      exact ⟨hnil, hq⟩
    · rw [← hpool]
      have hpu := hu.pc
      refine hu.collects hend heof ?_
      obtain ⟨ls₁, ls₂, hls, _, h1, _⟩ := hu.split
      cases ls₁ with
      | nil => cases h1; rw [hpc] at hpu; cases hpu
      | cons l ls₁ => cases hls; exact hcounted h1
  have hcount := hcounted hturn
  exact
    { passed := by
        intro nsel rset hq
        rw [Counted, hq] at hcount
        obtain ⟨hR, hn, hpos⟩ := hcount
        refine ⟨hR, hpos, ?_⟩
        rw [hn, reportedWorkers_congr (Parent.layout_run hturn).pipefd]
      returns := fun is nsel rset hq => scan_returns out hq
      called := by
        intro hend hready
        rcases hready with ⟨i, hi⟩
        rcases turn_enters hpc hgo hturn hend with ⟨hmem, hone, _, _⟩ | ⟨u, nsel, hu, _⟩
        · -- the listening socket would be all that was reported
          exact absurd (Finset.card_le_one.mp (Nat.le_of_eq hone) _ hi _ hmem) (hreg.ne i)
        · exact ⟨u, nsel, hu⟩
      reads := fun hend => (hover hend).1
      result := by
        intro hend is hnd his
        rw [(hover hend).2]
        refine foldl_markFree_perm ?_ _
        refine (List.perm_ext_iff_of_nodup ((List.nodup_finRange n).filter _) hnd).mpr ?_
        intro i
        rw [his i]
        exact mem_reportedWorkers }

/-- Worker `i` is handed a connection; then a client and its completion are reported together. -/
def clientAndCompletion (i : Fin 2) : List (Call 2) :=
  [.tau, .select, .selectRet (some {3}), .tau, .accept 9, .sendmsg i cmdConn 9 .ok, .close 9,
    .select, .selectRet (some {3, 4})]

/-- Both are taken in one turn, by different workers. -/
theorem early_exit_full_scan_clientAndCompletion :
    ∃ (p q : Parent 2) (ls : List (Call 2)), p.self.sockFd ∈ ({3, 4} : Finset Nat) ∧
      q.pc = .loopTop ∧
      FullScan Numbering.twoWorkers.server (fun _ => .byte cmdDone) {3, 4} p ls q := by
  obtain ⟨p, hp, hsock, hpc, hgo, hsub, q, hq, hend⟩ : ∃ p,
      (Parent.lts Numbering.twoWorkers.server).Run Lts.Any
        (Parent.start Numbering.twoWorkers.server) (clientAndCompletion 0) p ∧
        p.self.sockFd ∈ ({3, 4} : Finset Nat) ∧
        p.pc = .selected ({3, 4} : Finset Nat).card {3, 4} ∧ p.serverStop = false ∧
        {3, 4} ⊆ p.self.masterset ∧
        ∃ q ∈ (Parent.lts Numbering.twoWorkers.server).exec (InTurn fun _ => .byte cmdDone) p
            [.tau, .accept 9, .sendmsg 1 cmdConn 9 .ok, .close 9, .read 0 (.byte cmdDone)],
          q.pc = .loopTop :=
    Lts.exists_run_of_exec (by decide +kernel)
  exact ⟨p, q, _, hsock, hend, early_exit_full_scan (registered_run hp) hpc hgo (by decide) hsub
    (fun _ _ => ⟨cmdDone, rfl⟩) (Lts.run_of_exec hq)⟩

end TcpServer.Proof
