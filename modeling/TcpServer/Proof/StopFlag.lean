import TcpServer.Model.Run

/-!
# What becomes of a stop request

The handler of `SIGINT` sets `SERVER_STOP` and returns; the loop tests the flag
once in a turn, after `select` has come back. A request is heard if it arrives
while the parent waits in `select`, which then fails, or between the return of
`select` and the test.

Anywhere else in the loop the flag is set and the parent goes on to wait in the
next `select` first. Before the loop it does not even stay set:
`tcp_server_run` begins by clearing it.
-/

namespace TcpServer.Proof

open TcpServer

variable {n : Nat}

/-- A `SIGINT` that arrives here is heard: the parent waits in `select`, or is between that and the
test of `SERVER_STOP`, or has left the loop. -/
def Heard : Pc n → Prop
  | .inSelect _ => True
  | .selected _ _ => True
  | .terminating _ => True
  | .waiting => True
  | .returned => True
  | _ => False

/-- The parent is on its way out: in `worker_pool_workers_terminate` or past it, or at the test of
a flag that is set. -/
def Leaving (p : Parent n) : Prop :=
  match p.pc with
  | .selected _ _ => p.serverStop = true
  | .terminating _ => True
  | .waiting => True
  | .returned => True
  | .killed => True
  | _ => False

/-- A stop request that is heard puts the parent on its way out. -/
theorem leaving_of_heard {p q : Parent n} (hok : Heard p.pc) (hs : p.step .sigint = some q) :
    Leaving q := by
  cases hs
  unfold Leaving
  cases hpc : p.pc with
  | inSelect rset | selected nsel rset => rfl
  | terminating is | waiting | returned => trivial
  | _ => rw [hpc] at hok; exact hok.elim

/-- On its way out, the parent's own next step is into `worker_pool_workers_terminate`, or on in
it; it does not call `select`. -/
theorem leaving_step {p q : Parent n} {c : Call n} (h : Leaving p) (hs : p.step c = some q) :
    Leaving q ∧ c ≠ .select := by
  unfold Leaving at h
  cases Parent.step_cases hs with
  | @test nsel rset hpc =>
      rw [hpc] at h
      have hout : p.afterTest nsel rset = .terminating (List.finRange n) := if_pos h
      unfold Leaving
      rw [hout]
      exact ⟨trivial, by simp⟩
  | stopped hpc | stop hpc _ | stopKilled hpc | ret hpc => exact ⟨trivial, by simp⟩
  | reap hpc => exact ⟨h, by simp⟩
  | sigint =>
      unfold Leaving
      cases hpc : p.pc with
      | selected nsel rset => exact ⟨rfl, by simp⟩
      | terminating is | waiting | returned | killed => exact ⟨trivial, by simp⟩
      | _ => rw [hpc] at h; exact h.elim
  | enter hpc | overrun hpc _ | scanned hpc | skip hpc _ | select hpc | ready hpc _ _ | failed hpc
  | accept hpc | submit hpc _ _ | submitKilled hpc _ | close hpc | readEof hpc _ | free hpc _ _ =>
      rw [hpc] at h; exact h.elim

/-- At the test, leaving is the only thing left to do, and nothing is needed for it. -/
theorem leaving_test {p : Parent n} {nsel : Int} {rset : Finset Nat} (h : Leaving p)
    (hpc : p.pc = .selected nsel rset) :
    p.step .tau = some { p with pc := .terminating (List.finRange n) }
      ∧ ∀ c q, p.step c = some q → c = .tau ∨ c = .sigint := by
  unfold Leaving at h
  rw [hpc] at h
  refine ⟨?_, ?_⟩
  · have hout : p.afterTest nsel rset = .terminating (List.finRange n) := if_pos h
    simp only [Parent.step, hpc, hout]
  · intro c q hs
    rcases (Parent.step_cases hs).of_selected hpc with ⟨rfl, _⟩ | ⟨rfl, _⟩
    · exact .inl rfl
    · exact .inr rfl

/-- What a stop request should have done by the time the parent is in `p`, `post` being what it
has called since: no further `select`, and out of the loop or with nothing else left to do. -/
structure StopKept (post : List (Call n)) (p : Parent n) : Prop where
  noSelect : .select ∉ post
  leaving : Leaving p
  leaves : ∀ nsel rset, p.pc = .selected nsel rset →
    p.step .tau = some { p with pc := .terminating (List.finRange n) }
      ∧ ∀ c q, p.step c = some q → c = .tau ∨ c = .sigint

theorem stopKept_run {self : Server n} {ok : Parent n → Call n → Prop} {p q : Parent n}
    {ls : List (Call n)} (h : (Parent.lts self).Run ok p ls q) (hp : Leaving p) :
    StopKept ls q := by
  induction h with
  | nil p => exact ⟨by simp, hp, fun nsel rset hpc => leaving_test hp hpc⟩
  | @cons p u q l ls _ hs _ ih =>
      obtain ⟨hu, hsel⟩ := leaving_step hp hs
      have hrest := ih hu
      refine ⟨?_, hrest.leaving, hrest.leaves⟩
      rw [List.mem_cons, not_or]
      exact ⟨fun heq => hsel heq.symm, hrest.noSelect⟩

/--
**A stop request that is heard is kept**, however the run goes on.
-/
theorem stop_request_kept {self : Server n} {u p : Parent n} {post : List (Call n)}
    (hok : Heard u.pc) (h : (Parent.lts self).Run Lts.Any u (.sigint :: post) p) :
    StopKept post p := by
  cases h with
  | cons _ hs hpost => exact stopKept_run hpost (leaving_of_heard hok hs)

/-- It arrives while the parent sleeps in `select`. -/
theorem stop_request_kept_inSelect :
    ∃ p : Parent 1, p.pc = .waiting ∧ StopKept [.tau, .write 0 cmdStop .ok, .tau] p := by
  obtain ⟨u, _, hpc, p, hp, hwait⟩ : ∃ u, (Parent.lts Numbering.oneWorker.server).Run Lts.Any
      (Parent.start Numbering.oneWorker.server) [.tau, .select] u ∧ u.pc = .inSelect {4, 3} ∧
        ∃ p ∈ (Parent.lts Numbering.oneWorker.server).exec Lts.Any u
          [.sigint, .tau, .write 0 cmdStop .ok, .tau], p.pc = .waiting :=
    Lts.exists_run_of_exec (by decide +kernel)
  have hok : Heard u.pc := by rw [hpc]; trivial
  exact ⟨p, hwait, stop_request_kept hok (Lts.run_of_exec hp)⟩

/-- It arrives before `tcp_server_run` is entered, and the parent goes to sleep all the same. -/
theorem stop_request_lost :
    ¬ ∀ (n : Nat) (c : Numbering n) (pre post : List (Call n)) (u p : Parent n), 1 ≤ n →
      (Parent.lts c.server).Run Lts.Any (Parent.start c.server) pre u →
      (Parent.lts c.server).Run Lts.Any u (.sigint :: post) p → StopKept post p := by
  intro hevery
  obtain ⟨p, hp, _⟩ : ∃ p, (Parent.lts Numbering.oneWorker.server).Run Lts.Any
      (Parent.start Numbering.oneWorker.server) [.sigint, .tau, .select] p ∧
        p.serverStop = false :=
    Lts.exists_run_of_exec (by decide +kernel)
  have hkept := hevery 1 .oneWorker [] _ _ p (by decide) (.nil _) hp
  exact hkept.noSelect (by decide)

end TcpServer.Proof
