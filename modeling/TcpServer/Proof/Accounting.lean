import TcpServer.Model.Run

/-!
# How far the counter drifts

`worker_pool_workers_find_free` takes every byte it reads for a completion: it
marks the sender ready and counts it, without asking whether it was busy. A byte
from a worker that was ready already is counted a second time.

`drift` is the difference between the counter and the number of ready workers.
Nothing but such a byte changes it and nothing ever takes it back (`drift_step`),
so over a whole run it is zero exactly when there was no such byte (`drift_run`).
Once it is not, `avail_workers_n > 0` no longer means that the search of
`worker_pool_workers_submit_conn` will find anybody.
-/

namespace TcpServer.Proof

open TcpServer Parent

variable {n : Nat}

/-- The call is not a byte read from a worker held as ready. -/
def ReadsBusy (p : Parent n) : Call n → Prop
  | .read i ret => ret = .eof ∨ (p.self.wp.worker i).status ≠ 0
  | _ => True

instance (p : Parent n) : (c : Call n) → Decidable (ReadsBusy p c)
  | .read i ret => inferInstanceAs (Decidable (ret = .eof ∨ (p.self.wp.worker i).status ≠ 0))
  | .tau | .select | .selectRet _ | .accept _ | .sendmsg .. | .close _ | .write .. | .wait _
  | .sigint => isTrue trivial

/-- How many more ready workers the counter shows than there are. -/
def drift (p : Parent n) : Int := p.self.wp.availWorkersN - p.self.wp.readyCount

/-- The pool's books are in order, and a connection finds a worker. -/
structure PoolSound (p : Parent n) : Prop where
  counter : p.self.wp.availWorkersN = p.self.wp.readyCount
  bounded : p.self.wp.availWorkersN ≤ n
  /-- Every `worker_pool_workers_submit_conn` selects a worker. -/
  selects : ∀ conn nsel rset, p.pc = .submitting conn nsel rset →
    ∃ i, p.self.wp.findReady = some i
  /-- None of them has written `worker[workers_n]`. -/
  inBounds : p.pc ≠ .overrun

/-! ## The drift of a step and of a run -/

theorem drift_markBusy {wp : WorkerPool n} {i : Fin n} (h : (wp.worker i).status = 0) :
    (wp.markBusy i).availWorkersN - (wp.markBusy i).readyCount
      = wp.availWorkersN - wp.readyCount := by
  have hcount := WorkerPool.readyCount_markBusy h
  rw [WorkerPool.markBusy_avail]
  omega

theorem drift_markFree (wp : WorkerPool n) (i : Fin n) :
    (wp.markFree i).availWorkersN - (wp.markFree i).readyCount
      = wp.availWorkersN - wp.readyCount + if (wp.worker i).status = 0 then 1 else 0 := by
  have hcount := WorkerPool.readyCount_markFree wp i
  rw [WorkerPool.markFree_avail]
  split <;> rename_i hs
  · rw [if_pos hs] at hcount; omega
  · rw [if_neg hs] at hcount; omega

/-- **Only a byte from a ready worker moves the drift, and only up.** -/
theorem drift_step {p q : Parent n} {c : Call n} (h : Step p c q) :
    drift q = drift p + if ReadsBusy p c then 0 else 1 := by
  cases h with
  | @submit i conn nsel rset ret hpc hi hret =>
      have hbusy : ReadsBusy p (.sendmsg i cmdConn conn ret) := trivial
      rw [if_pos hbusy, Int.add_zero]
      exact drift_markBusy (WorkerPool.findReady_some hi)
  | @submitKilled i conn nsel rset hpc hi =>
      have hbusy : ReadsBusy p (.sendmsg i cmdConn conn .sigpipe) := trivial
      rw [if_pos hbusy, Int.add_zero]
      exact drift_markBusy (WorkerPool.findReady_some hi)
  | @free i is nsel rset ret hpc hfd hret =>
      have hd := drift_markFree p.self.wp i
      by_cases hs : (p.self.wp.worker i).status = 0
      · rw [if_pos hs] at hd
        have hstray : ¬ ReadsBusy p (.read i ret) := by
          rintro (heof | hbusy)
          · exact hret heof
          · exact hbusy hs
        rw [if_neg hstray]
        exact hd
      · rw [if_neg hs] at hd
        have hbusy : ReadsBusy p (.read i ret) := .inr hs
        rw [if_pos hbusy]
        exact hd
  | @readEof i is nsel rset hpc hfd =>
      have heof : ReadsBusy p (.read i .eof) := .inl rfl
      rw [if_pos heof, Int.add_zero]
      rfl
  | _ => simp [drift, ReadsBusy]

/-- Over a run the drift grows by one for each such byte, so it tells whether there was one. -/
theorem drift_run {self : Server n} {s p : Parent n} {ls : List (Call n)}
    (h : (Parent.lts self).Run Lts.Any s ls p) :
    drift s ≤ drift p ∧ (drift p = drift s ↔ (Parent.lts self).Run ReadsBusy s ls p) := by
  induction h with
  | nil s => exact ⟨Int.le_refl _, fun _ => .nil s, fun _ => rfl⟩
  | @cons s u p l ls _ hs _ ih =>
      obtain ⟨hle, hiff⟩ := ih
      have hd := drift_step (Parent.step_cases hs)
      rw [Lts.run_cons_iff hs]
      by_cases hbusy : ReadsBusy s l
      · rw [if_pos hbusy] at hd
        refine ⟨by omega, ?_⟩
        rw [← hiff]
        constructor
        · intro heq; exact ⟨hbusy, by omega⟩
        · rintro ⟨_, heq⟩; omega
      · rw [if_neg hbusy] at hd
        refine ⟨by omega, ?_⟩
        constructor
        · intro heq; omega
        · rintro ⟨hok, _⟩; exact absurd hok hbusy

/-! ## Where the counter is relied on -/

/-- A connection is only accepted while the counter is positive. -/
def Guarded (s : Server n) : Pc n → Prop
  | .inSelect rset => rset = s.selectSet
  | .selected _ rset => rset ⊆ s.selectSet
  | .accepting _ _ => 0 < s.wp.availWorkersN
  | .submitting _ _ _ => 0 < s.wp.availWorkersN
  | .overrun => False
  | _ => True

/-- A positive counter that has not drifted finds a worker. -/
theorem findReady_of_drift {p : Parent n} (hd : drift p = 0)
    (hpos : 0 < p.self.wp.availWorkersN) : ∃ i, p.self.wp.findReady = some i := by
  unfold drift at hd
  exact WorkerPool.findReady_isSome (by omega)

theorem guarded_afterTest {p : Parent n} {nsel : Int} {rset : Finset Nat}
    (h : rset ⊆ p.self.selectSet) : Guarded p.self (p.afterTest nsel rset) := by
  unfold Parent.afterTest
  split
  · trivial
  · split
    · rename_i hmem
      exact Server.avail_pos_of_mem_selectSet (h hmem)
    · trivial

theorem guarded_afterSignal {s : Server n} {pc : Pc n} (h : Guarded s pc) :
    Guarded s (Parent.afterSignal pc) := by
  cases pc with
  | inSelect rset => exact h.subset
  | _ => exact h

theorem guarded_step {p q : Parent n} {c : Call n} (hd : drift p = 0) (hg : Guarded p.self p.pc)
    (h : Step p c q) : Guarded q.self q.pc := by
  cases h with
  | test hpc => rw [hpc] at hg; exact guarded_afterTest hg
  | overrun hpc hnone =>
      -- this is where a drift would show
      rw [hpc] at hg
      obtain ⟨i, hi⟩ := findReady_of_drift hd hg
      rw [hi] at hnone
      cases hnone
  | ready hpc hsub hne =>
      rw [hpc] at hg
      have hset := hg
      subst hset
      exact hsub
  | failed hpc => rw [hpc] at hg; exact hg.subset
  | accept hpc => rw [hpc] at hg; exact hg
  | select hpc => exact rfl
  | close hpc => dsimp only; unfold Parent.afterClose; split <;> trivial
  | free hpc hfd hret => dsimp only; unfold Parent.afterRead; split <;> trivial
  | sigint => exact guarded_afterSignal hg
  | reap hpc => exact hg
  | enter hpc | scanned hpc | skip hpc hfd | stopped hpc | submit hpc hi hret | submitKilled hpc hi
  | readEof hpc hfd | stop hpc hret | stopKilled hpc | ret hpc => trivial

/-! ## Over whole runs -/

theorem drift_start (c : Numbering n) : drift (Parent.start c.server) = 0 := by
  show c.server.wp.availWorkersN - c.server.wp.readyCount = 0
  rw [c.server_avail, c.server_readyCount]
  omega

/-- What a run that reads completions only keeps. -/
def OnBooks (p : Parent n) : Prop := drift p = 0 ∧ Guarded p.self p.pc

theorem onBooks_step {p q : Parent n} {c : Call n} (h : OnBooks p) (hbusy : ReadsBusy p c)
    (hs : p.step c = some q) : OnBooks q := by
  have hstep := Parent.step_cases hs
  have hd := drift_step hstep
  rw [if_pos hbusy, h.1] at hd
  exact ⟨hd, guarded_step h.1 h.2 hstep⟩

/--
**The pool's books are right exactly as long as no ready worker sends a byte.**

For every run of the loop, whatever its calls return.
-/
theorem pool_sound_iff (c : Numbering n) {ls : List (Call n)} {p : Parent n}
    (h : (Parent.lts c.server).Run Lts.Any (Parent.start c.server) ls p) :
    PoolSound p ↔ (Parent.lts c.server).Run ReadsBusy (Parent.start c.server) ls p := by
  have hrun := (drift_run h).2
  rw [drift_start c] at hrun
  constructor
  · intro hsound
    refine hrun.mp ?_
    have hcounter := hsound.counter
    unfold drift
    omega
  · intro hbusy
    have hstart : OnBooks (Parent.start c.server) := ⟨drift_start c, trivial⟩
    obtain ⟨hd, hg⟩ := hbusy.invariant onBooks_step hstart
    have hcounter : p.self.wp.availWorkersN = p.self.wp.readyCount := by unfold drift at hd; omega
    have hle := p.self.wp.readyCount_le
    refine ⟨hcounter, by omega, ?_, ?_⟩
    · intro conn nsel rset hpc
      rw [hpc] at hg
      exact findReady_of_drift hd hg
    · intro hpc
      rw [hpc] at hg
      exact hg

/-- A byte from the first of two workers while both are ready, then a client for each of them; a
third one finds nobody. -/
def strayByte : List (Call 2) :=
  [.tau, .select, .selectRet (some {4}), .tau, .read firstWorker (.byte 120),
    .select, .selectRet (some {3}), .tau, .accept 6, .sendmsg firstWorker cmdConn 6 .ok, .close 6,
    .select, .selectRet (some {3}), .tau, .accept 6, .sendmsg secondWorker cmdConn 6 .ok, .close 6,
    .select, .selectRet (some {3}), .tau, .accept 6]

theorem pool_sound_iff_strayByte :
    ∃ p, p.self.wp.availWorkersN = 1 ∧ p.self.wp.readyCount = 0 ∧
      (PoolSound p ↔ (Parent.lts Numbering.twoWorkers.server).Run ReadsBusy
        (Parent.start Numbering.twoWorkers.server) strayByte p) := by
  obtain ⟨p, hrun, havail, hbusy⟩ : ∃ p, (Parent.lts Numbering.twoWorkers.server).Run Lts.Any
      (Parent.start Numbering.twoWorkers.server) strayByte p ∧
        p.self.wp.availWorkersN = 1 ∧ p.self.wp.readyCount = 0 :=
    Lts.exists_run_of_exec (by decide +kernel)
  exact ⟨p, havail, hbusy, pool_sound_iff .twoWorkers hrun⟩

/-- The third connection is written past the end of the array. -/
theorem stray_byte_overruns :
    ¬ ∀ (n : Nat) (c : Numbering n), 1 ≤ n → ∀ (ls : List (Call n)) (p : Parent n),
      (Parent.lts c.server).Run Lts.Any (Parent.start c.server) ls p → PoolSound p := by
  intro hevery
  obtain ⟨p, hrun, hpc⟩ : ∃ p, (Parent.lts Numbering.twoWorkers.server).Run Lts.Any
      (Parent.start Numbering.twoWorkers.server) (strayByte ++ [.tau]) p ∧ p.pc = .overrun :=
    Lts.exists_run_of_exec (by decide +kernel)
  exact (hevery 2 .twoWorkers (by decide) _ p hrun).inBounds hpc

end TcpServer.Proof
