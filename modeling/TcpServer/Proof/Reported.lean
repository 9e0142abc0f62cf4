import TcpServer.Model.Run

/-!
# What the parent touches

`select` is the only place where the parent means to wait. Everywhere else it
calls `accept` or `read` on a descriptor because `select` has just reported it,
so that the call cannot block.

That reasoning needs a report. When `select` fails it returns `-1` and leaves
the set as it was passed, every descriptor in it; the loop looks at the set and
not at the return value. The failure it knows about is the one that comes with
`SERVER_STOP`. On any other the parent goes on as if everything were ready.
-/

namespace TcpServer.Proof

open TcpServer

variable {n : Nat}

/-- The set that the `select` call of the current turn has reported, after one more call. -/
def reportedAfter (r : Finset Nat) : Call n → Finset Nat
  | .select => ∅
  | .selectRet (some ready) => ready
  | .selectRet none => ∅
  | _ => r

/-- The set that the last `select` call among `ls` has reported. -/
def lastReported (ls : List (Call n)) : Finset Nat := ls.foldl reportedAfter ∅

/-- The descriptor that a call would block on if it were not ready. -/
def touches (self : Server n) : Call n → Option Nat
  | .accept _ => some self.sockFd
  | .read i _ => some (self.wp.worker i).pipefd
  | _ => none

/-- A descriptor the parent accepts on or reads from. -/
def Watched (self : Server n) (fd : Nat) : Prop :=
  fd = self.sockFd ∨ ∃ i, fd = (self.wp.worker i).pipefd

instance (self : Server n) (fd : Nat) : Decidable (Watched self fd) :=
  inferInstanceAs (Decidable (_ ∨ _))

/-- The loop goes past its test of `SERVER_STOP` after a `select` that failed, with something to
look at. -/
def failureIgnored (p : Parent n) (c : Call n) : Bool :=
  match p.pc, c with
  | .selected nsel rset, .tau => nsel = -1 ∧ p.serverStop = false ∧ ∃ fd ∈ rset, Watched p.self fd
  | _, _ => false

/-- Runs in which no failure of `select` is ignored. -/
def FailuresStop (p : Parent n) (c : Call n) : Prop := failureIgnored p c = false

instance (p : Parent n) (c : Call n) : Decidable (FailuresStop p c) :=
  inferInstanceAs (Decidable (_ = false))

/-! ## The set the loop looks at has been reported -/

/-- Of the set `rset`, what the parent would touch is in `r`. -/
def Backed (self : Server n) (r rset : Finset Nat) : Prop :=
  ∀ fd ∈ rset, Watched self fd → fd ∈ r

/-- What is true of the reported set `r` at each place. -/
def Reported (self : Server n) (r : Finset Nat) : Pc n → Prop
  | .selected nsel rset => nsel = -1 ∨ Backed self r rset
  | .accepting _ rset => self.sockFd ∈ rset ∧ Backed self r rset
  | .submitting _ _ rset => Backed self r rset
  | .closing _ _ rset => Backed self r rset
  | .scanning _ _ rset => Backed self r rset
  | _ => True

/-- The pool may change, as long as no descriptor does. -/
theorem Backed.of_layout {s t : Server n} {r rset : Finset Nat} (h : Backed s r rset)
    (hsock : t.sockFd = s.sockFd)
    (hpipe : ∀ i, (t.wp.worker i).pipefd = (s.wp.worker i).pipefd) : Backed t r rset := by
  intro fd hfd hw
  refine h fd hfd ?_
  rcases hw with rfl | ⟨i, rfl⟩
  · exact .inl hsock
  · exact .inr ⟨i, hpipe i⟩

theorem reported_afterTest {p : Parent n} {r rset : Finset Nat} {nsel : Int}
    (hpc : p.pc = .selected nsel rset) (h : Reported p.self r p.pc)
    (hok : FailuresStop p .tau) : Reported p.self r (p.afterTest nsel rset) := by
  rw [hpc] at h
  unfold Parent.afterTest
  by_cases hstop : p.serverStop = true
  · rw [if_pos hstop]; trivial
  · have hback : Backed p.self r rset := by
      rcases h with hfail | hback
      · -- a failure that was not ignored had nothing to look at
        intro fd hfd hw
        exfalso
        have hnone : ¬ (nsel = -1 ∧ p.serverStop = false ∧ ∃ fd ∈ rset, Watched p.self fd) := by
          simpa [FailuresStop, failureIgnored, hpc] using hok
        exact hnone ⟨hfail, Bool.eq_false_iff.mpr hstop, fd, hfd, hw⟩
      · exact hback
    rw [if_neg hstop]
    by_cases hmem : p.self.sockFd ∈ rset
    · rw [if_pos hmem]; exact ⟨hmem, hback⟩
    · rw [if_neg hmem]; exact hback

theorem reported_step {p q : Parent n} {c : Call n} {r : Finset Nat}
    (h : Reported p.self r p.pc) (hok : FailuresStop p c) (hs : Parent.Step p c q) :
    Reported q.self (reportedAfter r c) q.pc := by
  have hl := hs.layout
  cases hs with
  | @test nsel rset hpc =>
      show Reported p.self r (p.afterTest nsel rset)
      exact reported_afterTest hpc h hok
  | ready hpc hsub hne => exact .inr fun fd hfd _ => hfd
  | failed hpc => exact .inl rfl
  | accept hpc => rw [hpc] at h; exact h.2
  | submit hpc hi hret =>
      rw [hpc] at h
      exact Backed.of_layout h hl.sockFd hl.pipefd
  | close hpc =>
      rw [hpc] at h
      dsimp only
      unfold Parent.afterClose
      split
      · trivial
      · exact h
  | skip hpc hfd => rw [hpc] at h; exact h
  | @free i is nsel rset ret hpc hfd hret =>
      rw [hpc] at h
      show Reported (p.setPool (p.self.wp.markFree i)).self r (Parent.afterRead is nsel rset)
      unfold Parent.afterRead
      split
      · trivial
      · have hback : Backed p.self r rset := h
        exact hback.of_layout hl.sockFd hl.pipefd
  | sigint =>
      have hsig : Reported p.self r (Parent.afterSignal p.pc) := by
        cases hpc : p.pc with
        | inSelect rset => exact .inl rfl
        | _ => rw [hpc] at h; exact h
      exact hsig
  | reap hpc => exact h
  | enter hpc | overrun hpc _ | scanned hpc | stopped hpc | select hpc | submitKilled hpc _
  | readEof hpc _ | stop hpc _ | stopKilled hpc | ret hpc => trivial

/-- What is touched next has been reported. -/
theorem touches_reported {p q : Parent n} {c : Call n} {r : Finset Nat} {fd : Nat}
    (h : Reported p.self r p.pc) (hs : Parent.Step p c q) (ht : touches p.self c = some fd) :
    fd ∈ r := by
  cases hs with
  | accept hpc =>
      rw [hpc] at h
      cases ht
      exact h.2 _ h.1 (.inl rfl)
  | @readEof i is nsel rset hpc hfd =>
      rw [hpc] at h
      cases ht
      exact h _ hfd (.inr ⟨i, rfl⟩)
  | @free i is nsel rset ret hpc hfd hret =>
      rw [hpc] at h
      cases ht
      exact h _ hfd (.inr ⟨i, rfl⟩)
  | _ => cases ht

/-! ## Over whole runs -/

theorem reported_run {self : Server n} {p q : Parent n} {ls : List (Call n)}
    (h : (Parent.lts self).Run FailuresStop p ls q) {r : Finset Nat}
    (hp : Reported p.self r p.pc) : Reported q.self (ls.foldl reportedAfter r) q.pc := by
  induction h generalizing r with
  | nil p => exact hp
  | cons hok hs _ ih => exact ih (reported_step hp hok (Parent.step_cases hs))

/--
**The parent touches only what `select` has reported**, in every run of the loop
in which no failure of `select` is ignored, from any state of the pool.
-/
theorem touches_only_reported {self : Server n} {p q : Parent n} {pre post : List (Call n)}
    {c : Call n} {fd : Nat} (hp : p.pc = .dispatched ∨ p.pc = .loopTop)
    (h : (Parent.lts self).Run FailuresStop p (pre ++ c :: post) q)
    (ht : touches p.self c = some fd) : fd ∈ lastReported pre := by
  obtain ⟨u, hpre, hrest⟩ := h.split
  have hstart : Reported p.self ∅ p.pc := by rcases hp with hpc | hpc <;> rw [hpc] <;> trivial
  have hu := reported_run hpre hstart
  have hl := Parent.layout_run hpre
  cases hrest with
  | cons hok hs _ =>
      refine touches_reported hu (Parent.step_cases hs) ?_
      rw [← ht]
      cases c with
      | accept conn => exact congrArg some hl.sockFd
      | read i ret => exact congrArg some (hl.pipefd i)
      | _ => rfl

theorem touches_only_reported_accept :
    Numbering.oneWorker.sockFd ∈ lastReported
      ([.tau, .select, .selectRet (some {3}), .tau] : List (Call 1)) := by
  obtain ⟨q, hrun, _⟩ : ∃ q, (Parent.lts Numbering.oneWorker.server).Run FailuresStop
      (Parent.start Numbering.oneWorker.server)
        ([.tau, .select, .selectRet (some {3}), .tau] ++ .accept 5 :: []) q ∧
          q.pc = .submitting 5 1 {3} :=
    Lts.exists_run_of_exec (by decide +kernel)
  exact touches_only_reported (.inl rfl) hrun (by decide +kernel)

/-- `select` is interrupted by some other signal, and the parent accepts. -/
theorem accepts_unreported :
    ¬ ∀ (n : Nat) (self : Server n) (p q : Parent n) (pre post : List (Call n)) (c : Call n)
      (fd : Nat), (p.pc = .dispatched ∨ p.pc = .loopTop) →
      (Parent.lts self).Run Lts.Any p (pre ++ c :: post) q → touches p.self c = some fd →
      fd ∈ lastReported pre := by
  intro hevery
  obtain ⟨q, hrun, _⟩ : ∃ q, (Parent.lts Numbering.oneWorker.server).Run Lts.Any
      (Parent.start Numbering.oneWorker.server)
        ([.tau, .select, .selectRet none, .tau] ++ .accept 5 :: []) q ∧
          q.pc = .submitting 5 (-1) {4, 3} :=
    Lts.exists_run_of_exec (by decide +kernel)
  have hmem := hevery 1 _ _ q _ _ _ 3 (.inl rfl) hrun (by decide +kernel)
  exact absurd hmem (by decide)

end TcpServer.Proof
