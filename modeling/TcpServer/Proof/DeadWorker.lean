import TcpServer.Proof.Scan

/-!
# What a dead worker does to the pool

A worker that has died leaves its channel readable for ever: every read returns
end-of-file, or an error once. `worker_pool_workers_find_free` takes the error
for a completion, and answers end-of-file by leaving its loop. It tells nobody.

So the worker stays where it was. Nothing in the loop ever takes a channel out
of the set given to `select` (`dead_worker_watched`). And whoever was reported
together with it and comes after it in the array is not looked at in that turn
(`completion_collected_iff`); as the dead worker is reported again in the next
turn, that is every turn. Nobody is looked at either in a turn that hands a client
to a worker that has died as a ready one: it ends with the parent (`turn_fate`).
-/

namespace TcpServer.Proof

open TcpServer

variable {n : Nat}

/-! ## It is never taken out -/

/-- Worker `i` takes no further part: it is not counted as ready, no connection is handed to it,
and its channel is not in the set the next `select` is given. -/
structure OutOfPool (p : Parent n) (i : Fin n) : Prop where
  notCounted : (p.self.wp.worker i).status ≠ 0
  notSelected : p.self.wp.findReady ≠ some i
  notWatched : (p.self.wp.worker i).pipefd ∉ p.self.selectSet

/--
**A dead worker never leaves the pool.**

After a read that found worker `i` dead, in whatever way the run goes on, its
channel is still in the set given to `select`.
-/
theorem dead_worker_watched (c : Numbering n) {pre post : List (Call n)} {i : Fin n}
    {ret : ReadRet} {p : Parent n} (_ : ret = .eof ∨ ret = .err)
    (h : (Parent.lts c.server).Run Lts.Any (Parent.start c.server) (pre ++ .read i ret :: post) p) :
    ¬ OutOfPool p i := by
  intro hout
  have hlayout := Parent.layout_run h
  exact hout.notWatched (hlayout.pipe_mem_selectSet i)

/-- The first of two workers is handed a connection and dies during its callback. -/
def diesInCallback : List (Call 2) :=
  [.tau, .select, .selectRet (some {3}), .tau, .accept 6, .sendmsg firstWorker cmdConn 6 .ok,
    .close 6, .select, .selectRet (some {4}), .tau]

theorem dead_worker_watched_diesInCallback :
    ∃ p : Parent 2, (p.self.wp.worker 0).status = 1 ∧ ¬ OutOfPool p 0 := by
  obtain ⟨p, hrun, hbusy⟩ : ∃ p, (Parent.lts Numbering.twoWorkers.server).Run Lts.Any
      (Parent.start Numbering.twoWorkers.server) (diesInCallback ++ .read 0 .eof :: []) p ∧
        (p.self.wp.worker 0).status = 1 :=
    Lts.exists_run_of_exec (by decide +kernel)
  exact ⟨p, hbusy, dead_worker_watched .twoWorkers (.inl rfl) hrun⟩

/-- It is watched, reported and found dead again in the turn after. -/
theorem dead_worker_not_out :
    ¬ ∀ (n : Nat) (c : Numbering n), 1 ≤ n → ∀ (pre post : List (Call n)) (i : Fin n)
      (ret : ReadRet) (p : Parent n), (ret = .eof ∨ ret = .err) →
      (Parent.lts c.server).Run Lts.Any (Parent.start c.server) (pre ++ .read i ret :: post) p →
      OutOfPool p i := by
  intro hevery
  obtain ⟨p, hrun, hwatched⟩ : ∃ p, (Parent.lts Numbering.twoWorkers.server).Run Lts.Any
      (Parent.start Numbering.twoWorkers.server)
        (diesInCallback ++ .read 0 .eof ::
          [.select, .selectRet (some {4}), .tau, .read 0 .eof]) p ∧
        (p.self.wp.worker 0).pipefd ∈ p.self.selectSet :=
    Lts.exists_run_of_exec (by decide +kernel)
  exact (hevery 2 .twoWorkers (by decide) _ _ 0 .eof p (.inl rfl) hrun).notWatched hwatched

/-! ## It hides the others -/

/-- The call hands a connection over. -/
def isSend : Call n → Bool
  | .sendmsg _ _ _ _ => true
  | _ => false

/-- Over a run the counter goes down with every connection handed over and up with every read
that does not return `0`. -/
theorem avail_run {self : Server n} {ok : Parent n → Call n → Prop} {p q : Parent n}
    {ls : List (Call n)} (h : (Parent.lts self).Run ok p ls q) :
    q.self.wp.availWorkersN + ls.countP isSend
      = p.self.wp.availWorkersN + ((readsOf ls).filter fun r => r.2 ≠ .eof).length := by
  induction h with
  | nil p => simp [readsOf]
  | @cons p u q l ls _ hs _ ih =>
      rw [readsOf_cons, List.countP_cons]
      cases Parent.step_cases hs with
      | submit hpc hi hret | submitKilled hpc hi =>
          have havail := WorkerPool.markBusy_avail p.self.wp
          simp only [Parent.setPool, havail] at ih
          simp only [readOf, isSend, Option.toList_none, List.nil_append, if_true]
          omega
      | free hpc hfd hret =>
          have havail := WorkerPool.markFree_avail p.self.wp
          simp only [Parent.setPool, havail] at ih
          simp [readOf, isSend, hret] at ih ⊢
          omega
      | _ => simpa [readOf, isSend] using ih

/-- What should become of a completion that worker `j` has waiting: it is read, once, the worker
is ready again, and the counter has gone up by one for it and for each other byte read. -/
structure Collected (out : Fin n → ReadRet) (p : Parent n) (ls : List (Call n)) (q : Parent n)
    (j : Fin n) : Prop where
  consumed : (readsOf ls).count (j, out j) = 1
  ready : (q.self.wp.worker j).status = 0
  counted : q.self.wp.availWorkersN + ls.countP isSend
    = p.self.wp.availWorkersN + ((readsOf ls).filter fun r => r.2 ≠ .eof).length

/-- Different descriptors: as many reported channels as there are numbers in the set at most. -/
theorem ready_length_le {wp : WorkerPool n} {rset s : Finset Nat}
    (hinj : ∀ i j, (wp.worker i).pipefd = (wp.worker j).pipefd → i = j)
    (hsub : ∀ i, (wp.worker i).pipefd ∈ rset → (wp.worker i).pipefd ∈ s) :
    ((List.finRange n).filter fun i => (wp.worker i).pipefd ∈ rset).length ≤ s.card := by
  have hnd : (((List.finRange n).filter fun i => (wp.worker i).pipefd ∈ rset).map
      fun i => (wp.worker i).pipefd).Nodup :=
    ((List.nodup_finRange n).filter _).map fun i j h => hinj i j h
  have hcard := List.toFinset_card_of_nodup hnd
  rw [List.length_map] at hcard
  rw [← hcard]
  refine Finset.card_le_card ?_
  intro fd hfd
  obtain ⟨i, hi, rfl⟩ := List.mem_map.mp (List.mem_toFinset.mp hfd)
  exact hsub i (by simpa using (List.mem_filter.mp hi).2)

/-! ## How a turn ends -/

/-- What `sendmsg` to worker `i` returns is `sent i`. -/
def Delivers (sent : Fin n → SendRet) : Call n → Prop
  | .sendmsg i _ _ ret => ret = sent i
  | _ => True

instance (sent : Fin n → SendRet) : (l : Call n) → Decidable (Delivers sent l)
  | .sendmsg i _ _ ret => inferInstanceAs (Decidable (ret = sent i))
  | .tau | .select | .selectRet _ | .accept _ | .close _ | .read .. | .write .. | .wait _
  | .sigint => isTrue trivial

/-- The turn is not over, and reads and hand-overs find the channels as `out` and `sent` say. -/
def TurnOf (out : Fin n → ReadRet) (sent : Fin n → SendRet) (p : Parent n) (l : Call n) : Prop :=
  InTurn out p l ∧ Delivers sent l

instance (out : Fin n → ReadRet) (sent : Fin n → SendRet) (p : Parent n) (l : Call n) :
    Decidable (TurnOf out sent p l) :=
  inferInstanceAs (Decidable (_ ∧ _))

/-- The turn has come to an end, here or elsewhere. -/
def TurnOver : Pc n → Prop
  | .selected _ _ | .accepting _ _ | .submitting _ _ _ | .closing _ _ _ | .scanning _ _ _ => False
  | _ => True

/-- A connection can be handed over: there is a ready worker, and somebody holds the other end of
its channel. -/
def CanHandOver (sent : Fin n → SendRet) (wp : WorkerPool n) : Prop :=
  ∃ i, wp.findReady = some i ∧ sent i ≠ .sigpipe

/-- The turn is on its way back to the top of the loop. -/
def Returning (sent : Fin n → SendRet) (p : Parent n) : Prop :=
  match p.pc with
  | .accepting _ _ | .submitting _ _ _ => CanHandOver sent p.self.wp
  | .closing _ _ _ | .scanning _ _ _ | .loopTop => True
  | _ => False

/-- The turn is on its way out of the loop, or to the end of the process. -/
def Departing (sent : Fin n → SendRet) (p : Parent n) : Prop :=
  match p.pc with
  | .accepting _ _ | .submitting _ _ _ => ¬ CanHandOver sent p.self.wp
  | .terminating _ | .waiting | .returned | .overrun | .killed => True
  | _ => False

section Fate

variable {self : Server n} {out : Fin n → ReadRet} {sent : Fin n → SendRet} {p q : Parent n}

theorem returning_step {l : Call n} (hs : Parent.Step p l q) (hok : TurnOf out sent p l)
    (h : Returning sent p) : Returning sent q := by
  unfold Returning at h
  cases hs with
  | select hpc => exact absurd hpc hok.1.1
  | accept hpc => rw [hpc] at h; exact h
  | overrun hpc hnone =>
      -- nobody is ready
      rw [hpc] at h
      obtain ⟨i, hi, _⟩ := h
      rw [hnone] at hi
      cases hi
  | submit hpc hi hret => trivial
  | @submitKilled i conn nsel rset hpc hi =>
      rw [hpc] at h
      obtain ⟨k, hk, hne⟩ := h
      rw [hi] at hk
      cases hk
      -- `sent i` is what this call has returned
      exact absurd (Eq.symm hok.2) hne
  | @close conn nsel rset hpc =>
      by_cases hlast : nsel - 1 = 0
      · simp only [Returning, Parent.afterClose, if_pos hlast]
      · simp only [Returning, Parent.afterClose, if_neg hlast]
  | scanned | skip | readEof => trivial
  | @free i is nsel rset ret hpc hfd hret =>
      by_cases hlast : nsel - 1 = 0
      · simp only [Returning, Parent.afterRead, if_pos hlast]
      · simp only [Returning, Parent.afterRead, if_neg hlast]
  | sigint =>
      revert h
      simp only [Returning]
      cases p.pc <;> exact id
  | enter hpc | test hpc | stopped hpc | ready hpc _ _ _ | failed hpc | stop hpc _ | stopKilled hpc
  | reap hpc | ret hpc => rw [hpc] at h; exact absurd h (by simp)

/-- On its way out, the parent reads nothing from the pool any more. -/
theorem departing_step {l : Call n} (hs : Parent.Step p l q) (hok : TurnOf out sent p l)
    (h : Departing sent p) : Departing sent q ∧ readOf l = none := by
  unfold Departing at h
  cases hs with
  | accept hpc => rw [hpc] at h; exact ⟨h, rfl⟩
  | overrun | submitKilled | stopped | stop | stopKilled | ret => exact ⟨trivial, rfl⟩
  | reap hpc => exact ⟨by simp only [Departing, hpc], rfl⟩
  | @submit i conn nsel rset ret hpc hi hret =>
      rw [hpc] at h
      have hsent : ret = sent i := hok.2
      exact absurd ⟨i, hi, hsent ▸ hret⟩ h
  | sigint =>
      refine ⟨?_, rfl⟩
      revert h
      simp only [Departing]
      cases p.pc <;> exact id
  | enter hpc | test hpc | select hpc | ready hpc _ _ _ | failed hpc | close hpc | scanned hpc
  | skip hpc _ | readEof hpc _ | free hpc _ _ => rw [hpc] at h; exact absurd h (by simp)

/-- A turn that is on its way back, and over, is back. -/
theorem returning_run {ls : List (Call n)} (hrun : (Parent.lts self).Run (TurnOf out sent) p ls q)
    (hover : TurnOver q.pc) (h : Returning sent p) : q.pc = .loopTop := by
  have hq : Returning sent q :=
    hrun.invariant (fun h hok hs => returning_step (Parent.step_cases hs) hok h) h
  unfold Returning at hq
  cases hpc : q.pc with
  | loopTop => rfl
  | _ => rw [hpc] at hover hq; simp [TurnOver] at hover hq

theorem departing_run {ls : List (Call n)}
    (hrun : (Parent.lts self).Run (TurnOf out sent) p ls q) (h : Departing sent p) :
    readsOf ls = [] := by
  induction hrun with
  | nil => rfl
  | cons hok hs _ ih =>
      obtain ⟨hnext, hnone⟩ := departing_step (Parent.step_cases hs) hok h
      rw [readsOf_cons, hnone, ih hnext]
      rfl

/-- **What `SERVER_STOP`, the reported set and the pool say about the turn decides its end.** -/
theorem turn_fate {ls : List (Call n)} {rset : Finset Nat}
    (hpc : p.pc = .selected rset.card rset)
    (hturn : (Parent.lts self).Run (TurnOf out sent) p (.tau :: ls) q) (hover : TurnOver q.pc) :
    (p.serverStop = false ∧ (p.self.sockFd ∈ rset → CanHandOver sent p.self.wp)
        ∧ q.pc = .loopTop) ∨
      (¬ (p.serverStop = false ∧ (p.self.sockFd ∈ rset → CanHandOver sent p.self.wp))
        ∧ readsOf ls = []) := by
  obtain ⟨_, hrest⟩ := (Lts.run_cons_iff (Parent.step_test hpc)).mp hturn
  by_cases hgo : p.serverStop = false
  · by_cases hmem : p.self.sockFd ∈ rset
    · by_cases hcan : CanHandOver sent p.self.wp
      · refine .inl ⟨hgo, fun _ => hcan, returning_run hrest hover ?_⟩
        simpa [Returning, Parent.afterTest, hgo, hmem] using hcan
      · refine .inr ⟨fun h => hcan (h.2 hmem), departing_run hrest ?_⟩
        simpa [Departing, Parent.afterTest, hgo, hmem] using hcan
    · refine .inl ⟨hgo, fun h => absurd h hmem, returning_run hrest hover ?_⟩
      simp [Returning, Parent.afterTest, hgo, hmem]
  · refine .inr ⟨fun h => hgo h.1, departing_run hrest ?_⟩
    simp [Departing, Parent.afterTest, hgo]

end Fate

/-! ## What it has read -/

/-- The call of `find_free` in a turn that did not fail. -/
theorem turn_calls_find_free {c : Numbering n} {self : Server n} {out : Fin n → ReadRet}
    {p q : Parent n} {ls : List (Call n)} {rset : Finset Nat}
    (hl : Parent.SameLayout (Parent.start c.server) p)
    (hpc : p.pc = .selected rset.card rset) (hgo : p.serverStop = false)
    (hturn : (Parent.lts self).Run (InTurn out) p (.tau :: ls) q) (hend : q.pc = .loopTop)
    {j : Fin n} (hj : (p.self.wp.worker j).pipefd ∈ rset) :
    ∃ (wp : WorkerPool n) (nsel : Int), (∀ i, (wp.worker i).pipefd = (p.self.wp.worker i).pipefd) ∧
      Covers wp rset (List.finRange n) nsel ∧
      wp.workersFindFree nsel rset out = (q.self.wp, readsOf ls) := by
  have hinj : ∀ i k, (p.self.wp.worker i).pipefd = (p.self.wp.worker k).pipefd → i = k := by
    intro i k hik
    rw [hl.pipefd_eq, hl.pipefd_eq] at hik
    exact c.pipe_inj i k hik
  have hsock : ∀ i, (p.self.wp.worker i).pipefd ≠ p.self.sockFd := by
    intro i
    rw [hl.pipefd_eq, hl.sockFd_eq]
    exact c.pipe_ne i
  obtain ⟨_, hrest⟩ := (Lts.run_cons_iff (Parent.step_test hpc)).mp hturn
  by_cases hmem : p.self.sockFd ∈ rset
  · -- a client and worker `j` are both reported, so the count does not run out
    have htwo : 1 < rset.card := Finset.one_lt_card.mpr ⟨_, hj, _, hmem, hsock j⟩
    have hpc' : p.afterTest rset.card rset = .accepting rset.card rset := by
      simp [Parent.afterTest, hgo, hmem]
    have hserve : serving (p.afterTest rset.card rset) = some ((rset.card : Int), rset) := by
      rw [hpc']; rfl
    obtain ⟨wp, hsame, heq⟩ := serve_run hrest hend hserve (by omega)
    refine ⟨wp, (rset.card : Int) - 1, hsame, .inr ?_, heq⟩
    have hle : ((List.finRange n).filter fun i => (wp.worker i).pipefd ∈ rset).length
        ≤ (rset.erase p.self.sockFd).card := by
      refine ready_length_le ?_ ?_
      · intro i k hik
        rw [hsame, hsame] at hik
        exact hinj i k hik
      · intro i hi
        rw [hsame] at hi ⊢
        exact Finset.mem_erase.mpr ⟨hsock i, hi⟩
    rw [Finset.card_erase_of_mem hmem] at hle
    omega
  · have hpc' : p.afterTest rset.card rset
        = .scanning (List.finRange n) rset.card rset := by
      simp [Parent.afterTest, hgo, hmem]
    refine ⟨p.self.wp, rset.card, fun _ => rfl, .inr ?_, scan_run hrest hend hpc'⟩
    have hle := ready_length_le hinj fun i (hi : (p.self.wp.worker i).pipefd ∈ rset) => hi
    omega

/-- In a turn that comes back, a completion is collected if no dead worker comes before it. -/
theorem collected_of_returns {c : Numbering n} {out : Fin n → ReadRet} {rset : Finset Nat}
    {ls : List (Call n)} {p q : Parent n} {j : Fin n}
    (hl : Parent.SameLayout (Parent.start c.server) p)
    (hpc : p.pc = .selected rset.card rset) (hgo : p.serverStop = false)
    (hturn : (Parent.lts c.server).Run (InTurn out) p (.tau :: ls) q) (hend : q.pc = .loopTop)
    (hj : (p.self.wp.worker j).pipefd ∈ rset) (heof : out j ≠ .eof) :
    Collected out p (.tau :: ls) q j
      ↔ ∀ i < j, (p.self.wp.worker i).pipefd ∈ rset → out i ≠ .eof := by
  obtain ⟨wp, nsel, hsame, hcov, heq⟩ := turn_calls_find_free hl hpc hgo hturn hend hj
  obtain ⟨hpool, hlog⟩ := findFreeLoop_collected out rset _ nsel wp hcov
  rw [WorkerPool.workersFindFree] at heq
  simp only [heq] at hpool hlog
  have htau : readsOf (.tau :: ls) = readsOf ls := readsOf_cons .tau ls
  have hmem : j ∈ collected out wp rset (List.finRange n)
      ↔ ∀ i < j, (p.self.wp.worker i).pipefd ∈ rset → out i ≠ .eof := by
    rw [mem_collected]
    simp only [hsame]
    constructor
    · intro h i hij
      exact h.2 i (Fin.le_of_lt hij)
    · intro h
      refine ⟨hj, ?_⟩
      intro i hij hi
      rcases Nat.eq_or_lt_of_le hij with he | hlt
      · rw [Fin.ext he]; exact heof
      · exact h i hlt hi
  rw [← hmem]
  have hcount : (readsOf ls).count (j, out j)
      = (collected out wp rset (List.finRange n)).count j := by
    have hfilter : ((readsOf ls).filter fun r => r.2 ≠ .eof).count (j, out j)
        = (readsOf ls).count (j, out j) := List.count_filter (by simp [heof])
    have hinj : Function.Injective fun i => (i, out i) := fun i k hik => (Prod.mk.inj hik).1
    rw [← hfilter, hlog]
    exact List.count_map_of_injective _ _ hinj j
  constructor
  · intro h
    have hone := h.consumed
    rw [htau, hcount] at hone
    exact List.count_pos_iff.mp (by omega)
  · intro h
    refine ⟨?_, ?_, avail_run hturn⟩
    · rw [htau, hcount]
      exact List.count_eq_one_of_mem (collected_nodup out wp rset) h
    · rw [hpool, status_foldl_markFree, if_pos h]

/--
**A completion is collected exactly if the turn comes back and no dead worker comes before it.**

`rset` is what `select` reported in this turn, `out` what is waiting on each
channel, `sent` what `sendmsg` on it returns, and `j` a reported worker with a
byte waiting. `p` is the parent back from `select`; in `q` the turn is over. It
comes back if `SERVER_STOP` is not set and a client that was reported can be
handed to somebody.
-/
theorem completion_collected_iff (c : Numbering n) {out : Fin n → ReadRet}
    {sent : Fin n → SendRet} {rset : Finset Nat} {pre ls : List (Call n)} {p q : Parent n}
    {j : Fin n} {b : UInt8}
    (hp : (Parent.lts c.server).Run Lts.Any (Parent.start c.server) pre p)
    (hpc : p.pc = .selected rset.card rset)
    (hturn : (Parent.lts c.server).Run (TurnOf out sent) p (.tau :: ls) q)
    (hover : TurnOver q.pc) (hj : (p.self.wp.worker j).pipefd ∈ rset) (hb : out j = .byte b) :
    Collected out p (.tau :: ls) q j ↔
      p.serverStop = false ∧ (p.self.sockFd ∈ rset → CanHandOver sent p.self.wp) ∧
        ∀ i < j, (p.self.wp.worker i).pipefd ∈ rset → out i ≠ .eof := by
  have heof : out j ≠ .eof := by rw [hb]; simp
  rcases turn_fate hpc hturn hover with ⟨hgo, hcan, hend⟩ | ⟨hnot, hnone⟩
  · have hiff := collected_of_returns (Parent.layout_run hp) hpc hgo
      (hturn.mono fun _ _ hok => hok.1) hend hj heof
    rw [hiff]
    exact ⟨fun h => ⟨hgo, hcan, h⟩, fun h => h.2.2⟩
  · constructor
    · intro h
      have hone := h.consumed
      rw [readsOf_cons, hnone] at hone
      cases hone
    · intro h
      exact absurd ⟨h.1, h.2.1⟩ hnot

/-- Two of three workers are handed a connection, and both are reported. -/
def bothReported : List (Call 3) :=
  [.tau, .select, .selectRet (some {3}), .tau, .accept 9, .sendmsg frontWorker cmdConn 9 .ok,
    .close 9, .select, .selectRet (some {3}), .tau, .accept 9, .sendmsg middleWorker cmdConn 9 .ok,
    .close 9, .select, .selectRet (some {4, 5})]

/-- One has died, the others are done. -/
def oneDied (dead : Fin 3) (i : Fin 3) : ReadRet := if i = dead then .eof else .byte cmdDone

/-- Only the channel of the one that died has no reader. -/
def oneBroken (dead : Fin 3) (i : Fin 3) : SendRet := if i = dead then .sigpipe else .ok

/-- The one that died comes after the one that is done. -/
theorem completion_collected_iff_bothReported :
    ∃ (p q : Parent 3) (ls : List (Call 3)), (q.self.wp.worker 1).status = 1 ∧
      (Collected (oneDied 1) p ls q 0 ↔
        p.serverStop = false ∧
          (p.self.sockFd ∈ ({4, 5} : Finset Nat) → CanHandOver (oneBroken 1) p.self.wp) ∧
          ∀ i < 0, (p.self.wp.worker i).pipefd ∈ ({4, 5} : Finset Nat) → oneDied 1 i ≠ .eof) := by
  obtain ⟨p, hp, hpc, hj, q, hq, hend, hbusy⟩ : ∃ p,
      (Parent.lts Numbering.threeWorkers.server).Run Lts.Any
        (Parent.start Numbering.threeWorkers.server) bothReported p ∧
        p.pc = .selected ({4, 5} : Finset Nat).card {4, 5} ∧
        (p.self.wp.worker 0).pipefd ∈ ({4, 5} : Finset Nat) ∧
        ∃ q ∈ (Parent.lts Numbering.threeWorkers.server).exec (TurnOf (oneDied 1) (oneBroken 1)) p
            [.tau, .read 0 (.byte cmdDone), .read 1 .eof],
          q.pc = .loopTop ∧ (q.self.wp.worker 1).status = 1 :=
    Lts.exists_run_of_exec (by decide +kernel)
  exact ⟨p, q, _, hbusy, completion_collected_iff .threeWorkers hp hpc (Lts.run_of_exec hq)
    (by rw [hend]; trivial) hj rfl⟩

/-- The one that died comes first: the completion of the other is not read. -/
theorem dead_worker_hides_completion :
    ¬ ∀ (n : Nat) (c : Numbering n) (out : Fin n → ReadRet) (sent : Fin n → SendRet)
      (rset : Finset Nat) (pre ls : List (Call n)) (p q : Parent n) (j : Fin n) (b : UInt8),
      (Parent.lts c.server).Run Lts.Any (Parent.start c.server) pre p →
      p.pc = .selected rset.card rset → p.serverStop = false →
      (Parent.lts c.server).Run (TurnOf out sent) p (.tau :: ls) q → q.pc = .loopTop →
      (p.self.wp.worker j).pipefd ∈ rset → out j = .byte b →
      Collected out p (.tau :: ls) q j := by
  intro hevery
  obtain ⟨p, hp, hpc, hgo, hj, q, hq, hend, hbusy⟩ : ∃ p,
      (Parent.lts Numbering.threeWorkers.server).Run Lts.Any
        (Parent.start Numbering.threeWorkers.server) bothReported p ∧
        p.pc = .selected ({4, 5} : Finset Nat).card {4, 5} ∧ p.serverStop = false ∧
        (p.self.wp.worker 1).pipefd ∈ ({4, 5} : Finset Nat) ∧
        ∃ q ∈ (Parent.lts Numbering.threeWorkers.server).exec (TurnOf (oneDied 0) (oneBroken 0)) p
            [.tau, .read 0 .eof],
          q.pc = .loopTop ∧ (q.self.wp.worker 1).status = 1 :=
    Lts.exists_run_of_exec (by decide +kernel)
  have hready := (hevery 3 .threeWorkers (oneDied 0) (oneBroken 0) {4, 5} _ _ p q 1 cmdDone hp hpc
    hgo (Lts.run_of_exec hq) hend hj rfl).ready
  rw [hbusy] at hready
  cases hready

end TcpServer.Proof
