import TcpServer.Proof.Echo
import TcpServer.Proof.Served

/-!
# Clients that say nothing

The callback's `read` has no timeout, so a client that connects and then says
nothing keeps its worker for as long as it likes. As many such clients as there are
workers keep the whole server: nobody else is accepted, nobody is answered, and a
`SIGINT` to the parent does not end it either, for it waits for the
workers (`silent_clients_stall`).

That is the only way a client can go unanswered, as far as the program and fair
scheduling go. If `select` looks at some worker's channel, then in every fair
behaviour all clients are answered exactly if all clients talk
(`answers_who_talks`). What has to be shown for that is that a worker comes back
from a callback whose client has talked; the rest is that `World` serves everyone.
-/

namespace TcpServer.Proof

open TcpServer World Lts

variable {n : Nat} {c : Numbering n} {w w' : World n} {e e' : Echo n}

/-! ## Nobody talks -/

/-- Worker `i` is in `read` for client `k`, who has sent nothing. -/
def Awaits (e : Echo n) (i : Fin n) (k : Conn) : Prop :=
  engaged (e.world.node i) = some ((e.callback i).conn, k) ∧ (e.callback i).pc = .reading ∧
    (e.stream k).pending = [] ∧ (e.stream k).eof = false

instance (e : Echo n) (i : Fin n) (k : Conn) : Decidable (Awaits e i k) :=
  inferInstanceAs (Decidable (_ ∧ _))

/-- Every worker waits for somebody. -/
def Stalled (e : Echo n) : Prop := ∀ i, ∃ k, Awaits e i k

/-- No fault, no failure of a `read`, and those who are waited for say nothing. -/
def Silent (e : Echo n) : EchoLabel n → Prop
  | .sys l => FaultFree e.world l
  | .callback _ call => call ≠ .read none
  | .send k _ => ∀ i, ¬ Awaits e i k
  | .finish k => ∀ i, ¬ Awaits e i k

instance (e : Echo n) : (l : EchoLabel n) → Decidable (Silent e l)
  | .sys l => inferInstanceAs (Decidable (FaultFree e.world l))
  | .callback _ call => inferInstanceAs (Decidable (call ≠ .read none))
  | .send k _ | .finish k => inferInstanceAs (Decidable (∀ i, ¬ Awaits e i k))

theorem Silent.faultFree {l : EchoLabel n} (h : Silent e l) : EchoFaultFree e l := by
  cases l with
  | sys l => exact h
  | callback i call | send k bs | finish k => trivial

theorem Phase.busy_of_inCallback {stop : Bool} {sent : List Conn} {status : Int} {nd : Node}
    (h : Phase stop sent status nd) (hpc : nd.proc.pc = .inCallback) :
    status = 1 ∧ nd.reaped = false := by
  cases h with
  | running hp => exact ⟨rfl, rfl⟩
  | idle hp | queued hp => exact absurd hpc hp.not_busy.2.1
  | received hp | returned hp | closed hp | reported hp | exited _ hp | exitedReported _ hp =>
      exact absurd (hp.symm.trans hpc) (by simp)

theorem Stalled.inCallback (h : Stalled e) (i : Fin n) :
    (e.world.node i).proc.pc = .inCallback := by
  obtain ⟨k, hengaged, _⟩ := h i
  exact inCallback_of_engaged hengaged

/-- With all workers busy nobody is accepted. -/
theorem Inv.no_accept (h : Inv c w) (hbusy : ∀ i, (w.worker i).status ≠ 0) {l : Label n}
    (hs : w.step l = some w') : w'.accepted = w.accepted := by
  rcases clients_step hs with ⟨_, rfl⟩ | ⟨_, _, ⟨hacc, _⟩ | ⟨j, hback, hacc⟩⟩
  · rfl
  · exact hacc
  · exfalso
    have hnone : w.parent.self.wp.readyCount = 0 :=
      Finset.card_eq_zero.mpr (Finset.filter_eq_empty_iff.mpr fun i _ => hbusy i)
    have havail := h.avail
    have hctl := h.control
    cases l with
    | parent call =>
        obtain ⟨p, u, hp, hk, rfl⟩ := World.step_parent hs
        cases hk with
        | accept hback' hfree hnew =>
            cases hp with
            | accept hpc =>
                rw [hpc] at hctl
                have hpos := hctl.1
                omega
        | _ => simp [setNode] at hacc
    | worker i call =>
        obtain ⟨nd, _, rfl⟩ := World.step_worker hs
        simp [setNode] at hacc
    | arrive => cases hs; simp at hacc
    | die i | stderr i b =>
        simp only [World.step, Option.ite_none_left_eq_some, Option.some.injEq] at hs
        obtain ⟨_, rfl⟩ := hs
        simp [setNode] at hacc

/-- **Whatever happens, the workers go on waiting.** -/
theorem stalled_step {l : EchoLabel n} (h : Inv c e.world) (hstalled : Stalled e)
    (hok : Silent e l) (hs : e.step l = some e') :
    Stalled e' ∧ e'.world.accepted = e.world.accepted
      ∧ ∀ k, (e'.stream k).echoed = (e.stream k).echoed := by
  cases l with
  | sys l =>
      obtain ⟨hready, hw, hstream, hcallback, _⟩ := Echo.step_sys hs
      refine ⟨?_, ?_, fun k => by rw [hstream]⟩
      · intro i
        obtain ⟨k, hengaged, hpc, hpending, heof⟩ := hstalled i
        refine ⟨k, ?_⟩
        cases callStep h hok hw i with
        | enter hnone _ _ _ => rw [hnone] at hengaged; cases hengaged
        | leave _ _ _ _ =>
            have hdone : (e.callback i).pc = .done := hready
            rw [hpc] at hdone
            cases hdone
        | same henter _ hsame _ _ =>
            rw [Awaits, hsame, hcallback, entered_same henter, hstream]
            exact ⟨hengaged, hpc, hpending, heof⟩
      · refine h.no_accept ?_ hw
        intro i
        rw [((h.phase i).busy_of_inCallback (hstalled.inCallback i)).1]
        decide
  | callback i call =>
      -- the only call a callback could make is a `read`, and there is nothing to read
      exfalso
      obtain ⟨_, f, k, s, hk, hstep, rfl⟩ := Echo.step_callback hs
      obtain ⟨k', hengaged, hpc, hpending, heof⟩ := hstalled i
      obtain rfl : k' = k := by
        obtain ⟨k₀, hfds, heq⟩ := (h.phase i).engaged_eq (hstalled.inCallback i)
        rw [hengaged] at heq
        obtain ⟨hconn, rfl⟩ := Prod.mk.inj (Option.some.inj heq)
        rw [hfds, hconn, List.lookup_cons_self] at hk
        exact Option.some.inj hk
      cases hstep with
      | failed _ => exact hok rfl
      | read _ _ hpre hend =>
          rw [hpending] at hpre
          have hlast := (hend (List.prefix_nil.mp hpre)).2
          rw [heof] at hlast
          cases hlast
      | hexdump hpc' _ | refused hpc' | write hpc' _ _ => rw [hpc] at hpc'; cases hpc'
  | send k bs =>
      obtain ⟨_, rfl⟩ := Echo.step_send hs
      refine ⟨?_, rfl, ?_⟩
      · intro i
        obtain ⟨k', hawaits⟩ := hstalled i
        refine ⟨k', ?_⟩
        have hne : k' ≠ k := fun heq => hok i (heq ▸ hawaits)
        simpa [Awaits, Echo.setStream, hne] using hawaits
      · intro k'
        by_cases hkk : k' = k
        · subst hkk; simp [Echo.setStream]
        · simp [Echo.setStream, hkk]
  | finish k =>
      obtain ⟨_, rfl⟩ := Echo.step_finish hs
      refine ⟨?_, rfl, ?_⟩
      · intro i
        obtain ⟨k', hawaits⟩ := hstalled i
        refine ⟨k', ?_⟩
        have hne : k' ≠ k := fun heq => hok i (heq ▸ hawaits)
        simpa [Awaits, Echo.setStream, hne] using hawaits
      · intro k'
        by_cases hkk : k' = k
        · subst hkk; simp [Echo.setStream]
        · simp [Echo.setStream, hkk]

/--
**As many silent clients as there are workers hold up the server.**

As long as they stay silent, no worker dies and no `read` fails, nobody else is
accepted, whoever connects, nobody is sent anything, and `tcp_server_run` does not
return, even after a `SIGINT` to the parent.
-/
theorem silent_clients_stall (c : Numbering n) {ls : List (EchoLabel n)}
    (h : (Echo.lts c).Reachable EchoFaultFree e) (hstalled : Stalled e)
    (hrun : (Echo.lts c).Run Silent e ls e') :
    Stalled e' ∧ e'.world.accepted = e.world.accepted
      ∧ (∀ k, (e'.stream k).echoed = (e.stream k).echoed)
      ∧ (0 < n → e'.world.parent.pc ≠ .returned) := by
  have hall : (Inv c e'.world ∧ EchoInv e') ∧ Stalled e'
      ∧ e'.world.accepted = e.world.accepted
      ∧ ∀ k, (e'.stream k).echoed = (e.stream k).echoed := by
    refine hrun.invariant (P := fun s => (Inv c s.world ∧ EchoInv s) ∧ Stalled s
      ∧ s.world.accepted = e.world.accepted ∧ ∀ k, (s.stream k).echoed = (e.stream k).echoed)
      ?_ ⟨echoInv_reachable h, hstalled, rfl, fun _ => rfl⟩
    rintro s l t ⟨hinv, hwait, hacc, hechoed⟩ hok hs
    obtain ⟨hwait', hacc', hechoed'⟩ := stalled_step hinv.1 hwait hok hs
    exact ⟨echoInv_step hinv hok.faultFree hs, hwait', hacc'.trans hacc,
      fun k => (hechoed' k).trans (hechoed k)⟩
  obtain ⟨⟨hi, _⟩, hwait, hacc, hechoed⟩ := hall
  refine ⟨hwait, hacc, hechoed, ?_⟩
  intro hn hpc
  have hctl := hi.control
  rw [hpc] at hctl
  have hreaped := hctl.1 ⟨0, hn⟩
  rw [((hi.phase ⟨0, hn⟩).busy_of_inCallback (hwait.inCallback _)).2] at hreaped
  cases hreaped

/-- Two silent clients hold both workers. A third connects and talks, and somebody gives up. -/
theorem silent_clients_stall_third :
    ∃ e, (Echo.lts .twoWorkers).Run Silent
        (Echo.start .twoWorkers (fun _ => 0) fun _ _ => 0)
        (.sys (.parent .tau) :: engage firstWorker ++ engage secondWorker) e ∧
      ∃ e', (Echo.lts .twoWorkers).Run Silent e
          [.sys .arrive, .send 2 [72, 105], .finish 2, .sys (.parent .select),
            .sys (.parent .sigint), .sys (.parent .tau),
            .sys (.parent (.write firstWorker cmdStop .ok)),
            .sys (.parent (.write secondWorker cmdStop .ok)), .sys (.parent .tau)] e' ∧
        e'.world.parent.pc = .waiting ∧ e'.world.arrivals = 3 ∧
          e'.world.accepted = e.world.accepted := by
  obtain ⟨e, hrun, hstalled, hnext⟩ : ∃ e, (Echo.lts .twoWorkers).Run Silent
      (Echo.start .twoWorkers (fun _ => 0) fun _ _ => 0)
      (.sys (.parent .tau) :: engage firstWorker ++ engage secondWorker) e ∧
        (Awaits e firstWorker 0 ∧ Awaits e secondWorker 1) ∧
        ∃ e' ∈ (Echo.lts .twoWorkers).exec Silent e
          [.sys .arrive, .send 2 [72, 105], .finish 2, .sys (.parent .select),
            .sys (.parent .sigint), .sys (.parent .tau),
            .sys (.parent (.write firstWorker cmdStop .ok)),
            .sys (.parent (.write secondWorker cmdStop .ok)), .sys (.parent .tau)],
          e'.world.parent.pc = .waiting ∧ e'.world.arrivals = 3 :=
    Lts.exists_run_of_exec (by decide +kernel)
  obtain ⟨e', he', hpc, harrivals⟩ := hnext
  have hr : (Echo.lts .twoWorkers).Reachable EchoFaultFree e :=
    ⟨_, _, ⟨_, _, rfl⟩, hrun.mono fun _ _ hok => hok.faultFree⟩
  have hall : Stalled e := by
    intro i
    rcases Fin.exists_fin_two.mp ⟨i, rfl⟩ with hi | hi
    · exact ⟨0, hi ▸ hstalled.1⟩
    · exact ⟨1, hi ▸ hstalled.2⟩
  have hrun' := Lts.run_of_exec he'
  exact ⟨e, hrun, e', hrun', hpc, harrivals,
    (silent_clients_stall .twoWorkers hr hall hrun').2.1⟩

end TcpServer.Proof
