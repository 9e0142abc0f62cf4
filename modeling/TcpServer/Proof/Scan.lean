import TcpServer.Model.Run

/-!
# What one turn of the loop reads

`worker_pool_workers_find_free` twice: as the loop over all workers that
`WorkerPool.findFreeLoop` computes in one go, and as the steps the parent takes
between entering it and coming back to the top of the loop. `scan_run` says that
they are the same function, signals in between included.

Of the loop's two exits, the countdown of `nsel` never comes too early: `select`
counted at least as many descriptors as there are channels left to visit
(`findFreeLoop_collected`). What is left is the `break` on end-of-file. A call
collects from the reported workers in order, up to the first that has hung up.
-/

namespace TcpServer.Proof

open TcpServer

variable {n : Nat}

/-! ## The loop in one go -/

/-- The reported workers of `is` that come before the first end-of-file. -/
def collected (out : Fin n → ReadRet) (wp : WorkerPool n) (rset : Finset Nat)
    (is : List (Fin n)) : List (Fin n) :=
  (is.filter fun i => (wp.worker i).pipefd ∈ rset).takeWhile fun i => out i ≠ .eof

/-- Freeing workers moves no descriptor. -/
theorem collected_markFree (out : Fin n → ReadRet) (wp : WorkerPool n) (i : Fin n)
    (rset : Finset Nat) (is : List (Fin n)) :
    collected out (wp.markFree i) rset is = collected out wp rset is := by
  simp [collected]

/-- The countdown allows for every channel still to visit. -/
def Covers (wp : WorkerPool n) (rset : Finset Nat) (is : List (Fin n)) (nsel : Int) : Prop :=
  nsel < 0 ∨ ((is.filter fun i => (wp.worker i).pipefd ∈ rset).length : Int) ≤ nsel

/--
**The loop frees the workers it collects from, and reads from no one else but the first that has
hung up.**
-/
theorem findFreeLoop_collected (out : Fin n → ReadRet) (rset : Finset Nat) :
    ∀ (is : List (Fin n)) (nsel : Int) (wp : WorkerPool n), Covers wp rset is nsel →
      (WorkerPool.findFreeLoop out rset is nsel wp).1
          = (collected out wp rset is).foldl WorkerPool.markFree wp
        ∧ (WorkerPool.findFreeLoop out rset is nsel wp).2.filter (fun r => r.2 ≠ .eof)
          = (collected out wp rset is).map fun i => (i, out i) := by
  intro is
  induction is with
  | nil => intro nsel wp _; exact ⟨rfl, rfl⟩
  | cons i is ih =>
      intro nsel wp hcov
      unfold WorkerPool.findFreeLoop
      by_cases hfd : (wp.worker i).pipefd ∈ rset
      · rw [if_pos hfd]
        by_cases heof : out i = .eof
        · have hnone : collected out wp rset (i :: is) = [] := by simp [collected, hfd, heof]
          rw [if_pos heof, hnone]
          simp
        · have hcons : collected out wp rset (i :: is) = i :: collected out wp rset is := by
            simp [collected, hfd, heof]
          have hlen : nsel < 0
              ∨ ((is.filter fun i => (wp.worker i).pipefd ∈ rset).length : Int) + 1 ≤ nsel := by
            simpa [Covers, hfd] using hcov
          rw [if_neg heof, hcons]
          by_cases hlast : nsel - 1 = 0
          · -- the countdown stops here, and nothing is left to visit
            have hnil : (is.filter fun i => (wp.worker i).pipefd ∈ rset) = [] := by
              rw [← List.length_eq_zero_iff]
              omega
            have hdone : collected out wp rset is = [] := by
              unfold collected
              rw [hnil]
              rfl
            rw [if_pos hlast, hdone]
            simp [heof]
          · have hcov' : Covers (wp.markFree i) rset is (nsel - 1) := by
              unfold Covers
              simp only [WorkerPool.markFree_pipefd]
              omega
            obtain ⟨hpool, hlog⟩ := ih (nsel - 1) (wp.markFree i) hcov'
            rw [collected_markFree] at hpool hlog
            rw [if_neg hlast]
            refine ⟨hpool, ?_⟩
            simpa [heof] using hlog
      · have hskip : collected out wp rset (i :: is) = collected out wp rset is := by
          simp [collected, hfd]
        have hcov' : Covers wp rset is nsel := by simpa [Covers, hfd] using hcov
        rw [if_neg hfd, hskip]
        exact ih nsel wp hcov'

/-! ## Who is collected from -/

/-- In a sorted list, `takeWhile` keeps what no smaller element stops. -/
theorem mem_takeWhile_of_sorted {l : List (Fin n)} (hl : l.Pairwise (· < ·)) {p : Fin n → Bool}
    {j : Fin n} : j ∈ l.takeWhile p ↔ j ∈ l ∧ ∀ i ∈ l, i ≤ j → p i = true := by
  induction l with
  | nil => simp
  | cons a l ih =>
      obtain ⟨ha, hl⟩ := List.pairwise_cons.mp hl
      by_cases hpa : p a = true
      · rw [List.takeWhile_cons_of_pos hpa, List.mem_cons, ih hl]
        constructor
        · rintro (rfl | ⟨hj, hall⟩)
          · refine ⟨List.mem_cons_self, ?_⟩
            intro i hi hij
            rcases List.mem_cons.mp hi with rfl | hi
            · exact hpa
            · have hlt := ha i hi
              omega
          · refine ⟨List.mem_cons_of_mem _ hj, ?_⟩
            intro i hi hij
            rcases List.mem_cons.mp hi with rfl | hi
            · exact hpa
            · exact hall i hi hij
        · rintro ⟨hj, hall⟩
          rcases List.mem_cons.mp hj with rfl | hj
          · exact .inl rfl
          · exact .inr ⟨hj, fun i hi hij => hall i (List.mem_cons_of_mem _ hi) hij⟩
      · rw [List.takeWhile_cons_of_neg hpa]
        constructor
        · intro hj; cases hj
        · rintro ⟨hj, hall⟩
          exfalso
          refine hpa (hall a List.mem_cons_self ?_)
          rcases List.mem_cons.mp hj with rfl | hj
          · exact Nat.le_refl _
          · exact Nat.le_of_lt (ha j hj)

theorem mem_collected {out : Fin n → ReadRet} {wp : WorkerPool n} {rset : Finset Nat}
    {j : Fin n} :
    j ∈ collected out wp rset (List.finRange n) ↔
      (wp.worker j).pipefd ∈ rset ∧ ∀ i ≤ j, (wp.worker i).pipefd ∈ rset → out i ≠ .eof := by
  have hsorted : ((List.finRange n).filter fun i => (wp.worker i).pipefd ∈ rset).Pairwise (· < ·) :=
    (List.pairwise_lt_finRange n).filter _
  rw [collected, mem_takeWhile_of_sorted hsorted]
  simp only [List.mem_filter, List.mem_finRange, true_and, decide_eq_true_eq]
  constructor
  · rintro ⟨hj, hall⟩
    exact ⟨hj, fun i hij hi => hall i hi hij⟩
  · rintro ⟨hj, hall⟩
    exact ⟨hj, fun i hi hij => hall i hij hi⟩

theorem collected_nodup (out : Fin n → ReadRet) (wp : WorkerPool n) (rset : Finset Nat) :
    (collected out wp rset (List.finRange n)).Nodup :=
  ((List.nodup_finRange n).filter _).sublist (List.takeWhile_sublist _)

/-- Freeing a list of workers sets their statuses and leaves the others. -/
theorem status_foldl_markFree (is : List (Fin n)) (wp : WorkerPool n) (j : Fin n) :
    ((is.foldl WorkerPool.markFree wp).worker j).status
      = if j ∈ is then 0 else (wp.worker j).status := by
  induction is generalizing wp with
  | nil => simp
  | cons i is ih =>
      rw [List.foldl_cons, ih]
      by_cases hj : j ∈ is
      · simp [hj]
      · by_cases hji : j = i
        · subst hji; simp [hj]
        · simp [hj, hji, WorkerPool.markFree_ne _ hji]

/-! ## The loop step by step -/

/-- The read a call is, if it is one. -/
def readOf : Call n → Option (Fin n × ReadRet)
  | .read i ret => some (i, ret)
  | _ => none

/-- The reads among some calls, in order. -/
def readsOf (ls : List (Call n)) : List (Fin n × ReadRet) := ls.filterMap readOf

theorem readsOf_cons (c : Call n) (ls : List (Call n)) :
    readsOf (c :: ls) = (readOf c).toList ++ readsOf ls := by
  unfold readsOf
  cases hc : readOf c <;> simp [hc]

/-- What a read returns is what is waiting on that channel. -/
def Answers (out : Fin n → ReadRet) : Call n → Prop
  | .read i ret => ret = out i
  | _ => True

instance (out : Fin n → ReadRet) : (c : Call n) → Decidable (Answers out c)
  | .read i ret => inferInstanceAs (Decidable (ret = out i))
  | .tau | .select | .selectRet _ | .accept _ | .sendmsg .. | .close _ | .write .. | .wait _
  | .sigint => isTrue trivial

/-- The turn is not over, and reads return what is waiting. -/
def InTurn (out : Fin n → ReadRet) (p : Parent n) (c : Call n) : Prop :=
  p.pc ≠ .loopTop ∧ Answers out c

instance (out : Fin n → ReadRet) (p : Parent n) (c : Call n) : Decidable (InTurn out p c) :=
  inferInstanceAs (Decidable (_ ∧ _))

section Turn

variable {self : Server n} {out : Fin n → ReadRet} {p q : Parent n} {ls : List (Call n)}

/-- A turn that is over stays as it is. -/
theorem turn_over (h : (Parent.lts self).Run (InTurn out) p ls q) (hpc : p.pc = .loopTop) :
    ls = [] ∧ q = p := by
  cases h with
  | nil => exact ⟨rfl, rfl⟩
  | cons hok _ _ => exact absurd hpc hok.1

/-- **The steps from inside `find_free` to the top of the loop compute what the loop computes.** -/
theorem scan_run (h : (Parent.lts self).Run (InTurn out) p ls q) (hend : q.pc = .loopTop)
    {is : List (Fin n)} {nsel : Int} {rset : Finset Nat} (hpc : p.pc = .scanning is nsel rset) :
    WorkerPool.findFreeLoop out rset is nsel p.self.wp = (q.self.wp, readsOf ls) := by
  induction h generalizing is nsel with
  | nil p => rw [hpc] at hend; cases hend
  | @cons p u q l ls hok hs hrest ih =>
      cases Parent.step_cases hs with
      | scanned hpc' =>
          rw [hpc] at hpc'
          cases hpc'
          obtain ⟨rfl, rfl⟩ := turn_over hrest rfl
          rfl
      | @skip i is' nsel' rset' hpc' hfd =>
          rw [hpc] at hpc'
          cases hpc'
          rw [WorkerPool.findFreeLoop, if_neg hfd]
          exact ih hend rfl
      | @readEof i is' nsel' rset' hpc' hfd =>
          rw [hpc] at hpc'
          cases hpc'
          have heof : out i = .eof := hok.2.symm
          obtain ⟨rfl, rfl⟩ := turn_over hrest rfl
          rw [WorkerPool.findFreeLoop, if_pos hfd, if_pos heof]
          rfl
      | @free i is' nsel' rset' ret hpc' hfd hret =>
          rw [hpc] at hpc'
          cases hpc'
          have hout : ret = out i := hok.2
          subst hout
          rw [WorkerPool.findFreeLoop, if_pos hfd, if_neg hret]
          by_cases hlast : nsel - 1 = 0
          · have htop : Parent.afterRead is' nsel rset = .loopTop := if_pos hlast
            obtain ⟨rfl, rfl⟩ := turn_over hrest htop
            rw [if_pos hlast]
            rfl
          · have hscan : Parent.afterRead is' nsel rset = .scanning is' (nsel - 1) rset :=
              if_neg hlast
            have hih := ih hend hscan
            rw [if_neg hlast]
            simp only [Parent.setPool] at hih
            rw [hih]
            rfl
      | sigint =>
          refine ih hend ?_
          rw [hpc]
          rfl
      | enter hpc' | test hpc' | overrun hpc' _ | stopped hpc' | select hpc' | ready hpc' _ _
      | failed hpc' | accept hpc' | submit hpc' _ _ | submitKilled hpc' _ | close hpc'
      | stop hpc' _ | stopKilled hpc' | reap hpc' | ret hpc' =>
          rw [hpc] at hpc'; cases hpc'

/-- The count and the set that the branch for a new connection goes on with. -/
def serving : Pc n → Option (Int × Finset Nat)
  | .accepting nsel rset => some (nsel, rset)
  | .submitting _ nsel rset => some (nsel, rset)
  | .closing _ nsel rset => some (nsel, rset)
  | _ => none

/-- The pool that the rest of the branch for a new connection leaves. -/
def submittedFrom (p : Parent n) : WorkerPool n :=
  match p.pc with
  | .accepting _ _ | .submitting _ _ _ => (p.self.wp.workersSubmitConn.map Prod.fst).getD p.self.wp
  | _ => p.self.wp

theorem pipefd_submittedFrom (p : Parent n) (i : Fin n) :
    ((submittedFrom p).worker i).pipefd = (p.self.wp.worker i).pipefd := by
  unfold submittedFrom
  split
  · cases hready : p.self.wp.findReady with
    | none => simp [WorkerPool.workersSubmitConn, hready]
    | some j => simp [WorkerPool.workersSubmitConn, hready]
  · cases hready : p.self.wp.findReady with
    | none => simp [WorkerPool.workersSubmitConn, hready]
    | some j => simp [WorkerPool.workersSubmitConn, hready]
  · rfl

/-- The turn enters `find_free` in state `u`. -/
structure Enters (s : Server n) (out : Fin n → ReadRet) (p : Parent n) (ls : List (Call n))
    (q u : Parent n) (nsel : Int) (R : Finset Nat) : Prop where
  pc : u.pc = .scanning (List.finRange n) nsel R
  split : ∃ ls₁ ls₂, ls = ls₁ ++ ls₂ ∧ readsOf ls₁ = [] ∧
    (Parent.lts s).Run (InTurn out) p ls₁ u ∧ (Parent.lts s).Run (InTurn out) u ls₂ q

/-- A turn that comes back to the top of the loop never got stuck or killed. -/
theorem returns_from (h : (Parent.lts self).Run (InTurn out) p ls q) (hend : q.pc = .loopTop) :
    p.pc ≠ .overrun ∧ p.pc ≠ .killed := by
  induction h with
  | nil p => rw [hend]; exact ⟨by simp, by simp⟩
  | @cons p u q l ls _ hs _ ih =>
      obtain ⟨hover, hkill⟩ := ih hend
      cases Parent.step_cases hs with
      | sigint =>
          refine ⟨?_, ?_⟩
          · intro hpc; exact hover (by rw [hpc]; rfl)
          · intro hpc; exact hkill (by rw [hpc]; rfl)
      | _ => simp_all

theorem Enters.cons {c : Call n} {u v : Parent n} {nsel : Int} (hok : InTurn out p c)
    (hs : (Parent.lts self).step p c = some u) (hread : readOf c = none)
    (h : Enters self out u ls q v nsel R) : Enters self out p (c :: ls) q v nsel R := by
  obtain ⟨ls₁, ls₂, rfl, hnil, h1, h2⟩ := h.split
  refine ⟨h.pc, c :: ls₁, ls₂, rfl, ?_, .cons hok hs h1, h2⟩
  rw [readsOf_cons, hread, hnil]
  rfl

/-- **After a hand-over the loop is left, or `find_free` is called, depending on the count.** -/
theorem serve_enters (h : (Parent.lts self).Run (InTurn out) p ls q) (hend : q.pc = .loopTop)
    {nsel : Int} (hserve : serving p.pc = some (nsel, R)) :
    (nsel - 1 = 0 ∧ readsOf ls = [] ∧ q.self.wp = submittedFrom p) ∨
      (nsel - 1 ≠ 0 ∧ ∃ u, Enters self out p ls q u (nsel - 1) R ∧
        u.self.wp = submittedFrom p) := by
  induction h with
  | nil p => rw [hend] at hserve; cases hserve
  | @cons p u q l ls hok hs hrest ih =>
      -- a step inside the branch, to a state that is still in it and owes the same pool
      have inside : readOf l = none → serving u.pc = some (nsel, R) →
          submittedFrom u = submittedFrom p →
          (nsel - 1 = 0 ∧ readsOf (l :: ls) = [] ∧ q.self.wp = submittedFrom p) ∨
            (nsel - 1 ≠ 0 ∧ ∃ v, Enters self out p (l :: ls) q v (nsel - 1) R ∧
              v.self.wp = submittedFrom p) := by
        intro hread hserve' hsame
        rcases ih hend hserve' with ⟨hlast, hnil, hpool⟩ | ⟨hmore, v, hv, hpool⟩
        · refine .inl ⟨hlast, ?_, hpool.trans hsame⟩
          rw [readsOf_cons, hread, hnil]
          rfl
        · exact .inr ⟨hmore, v, hv.cons hok hs hread, hpool.trans hsame⟩
      cases Parent.step_cases hs with
      | accept hpc =>
          rw [hpc] at hserve
          exact inside rfl hserve (by simp only [submittedFrom, hpc])
      | @submit i conn nsel' rset ret hpc hi hret =>
          rw [hpc] at hserve
          refine inside rfl hserve ?_
          simp [submittedFrom, hpc, WorkerPool.workersSubmitConn, hi, Parent.setPool]
      | @close conn nsel' rset hpc =>
          rw [hpc] at hserve
          cases hserve
          have hpool : p.self.wp = submittedFrom p := by simp only [submittedFrom, hpc]
          by_cases hlast : nsel - 1 = 0
          · obtain ⟨rfl, rfl⟩ := turn_over hrest (if_pos hlast)
            exact .inl ⟨hlast, rfl, hpool⟩
          · refine .inr ⟨hlast, _, ⟨if_neg hlast, [_], ls, rfl, rfl, ?_, hrest⟩, hpool⟩
            exact .cons hok hs (.nil _)
      | overrun hpc _ | submitKilled hpc _ =>
          have hback := returns_from hrest hend
          first | exact absurd rfl hback.1 | exact absurd rfl hback.2
      | sigint =>
          have hafter : Parent.afterSignal p.pc = p.pc := by
            cases hpc : p.pc <;> first | rfl | (rw [hpc] at hserve; cases hserve)
          refine inside rfl ?_ ?_
          · rw [hafter]; exact hserve
          · simp only [submittedFrom, hafter]
      | enter hpc | test hpc | scanned hpc | skip hpc _ | stopped hpc | select hpc | ready hpc _ _
      | failed hpc | readEof hpc _ | free hpc _ _ | stop hpc _ | stopKilled hpc | reap hpc
      | ret hpc =>
          rw [hpc] at hserve; cases hserve

/-- After a connection has been handed over, `find_free` is called unless it was all there was. -/
theorem serve_run (h : (Parent.lts self).Run (InTurn out) p ls q) (hend : q.pc = .loopTop)
    {nsel : Int} {rset : Finset Nat} (hserve : serving p.pc = some (nsel, rset))
    (hmore : nsel - 1 ≠ 0) :
    ∃ wp : WorkerPool n, (∀ i, (wp.worker i).pipefd = (p.self.wp.worker i).pipefd) ∧
      wp.workersFindFree (nsel - 1) rset out = (q.self.wp, readsOf ls) := by
  rcases serve_enters h hend hserve with ⟨hlast, _⟩ | ⟨_, u, hu, hpool⟩
  · exact absurd hlast hmore
  · obtain ⟨ls₁, ls₂, rfl, hnil, _, hscan⟩ := hu.split
    refine ⟨u.self.wp, ?_, ?_⟩
    · intro i
      rw [hpool]
      exact pipefd_submittedFrom p i
    · have happend : readsOf (ls₁ ++ ls₂) = readsOf ls₁ ++ readsOf ls₂ := List.filterMap_append
      rw [happend, hnil, List.nil_append]
      exact scan_run hscan hend hu.pc

end Turn

end TcpServer.Proof
