import TcpServer.Proof.Answers
import TcpServer.Proof.StopFlag
import TcpServer.Proof.Terminate

/-!
# Whether the server gets to its end

A stop request that is heard takes the parent out of its loop. It tells every
worker to stop and waits for all of them, and none of them is in a hurry: a worker
whose callback waits in `read` goes on waiting, with `'s'` behind it in its channel.
So whether `tcp_server_run` returns is up to the clients, and only to those who
had been accepted by then. It returns exactly if all of these talk
(`stop_awaits_accepted`).

That it does not return before is no news: everybody accepted is answered first.
For the other direction what is left to do in the system is the variant, and below
it the calls that the running callbacks have before them. While the parent is
telling the workers it can go on itself; while it waits, every worker that has not
ended can, its callback included.
-/

namespace TcpServer.Proof

open TcpServer World Lts

variable {n : Nat} {c : Numbering n} {w w' : World n} {e e' : Echo n}

/-! ## The system on its way out -/

/-- What the parent has left to do when it is on its way out. -/
def endLoad : Pc n → Nat
  | .selected _ _ => 6 * n + 3
  | pc => parentLoad pc

/-- What is left to do in the whole system. -/
def leftToDo (w : World n) : Nat := endLoad w.parent.pc + ∑ i, load (w.node i)

theorem leaving_of_ending {p : Parent n} (h : Ending p.pc) : Leaving p := by
  unfold Leaving
  cases hpc : p.pc with
  | terminating is | waiting | returned | killed => trivial
  | _ => rw [hpc] at h; exact h.elim

/-- On its way out the parent is at the test, or past it. -/
theorem Leaving.cases {p : Parent n} (h : Leaving p) :
    (∃ nsel rset, p.pc = .selected nsel rset ∧ p.serverStop = true) ∨ Ending p.pc := by
  unfold Leaving at h
  cases hpc : p.pc with
  | selected nsel rset => rw [hpc] at h; exact .inl ⟨nsel, rset, rfl, h⟩
  | terminating is | waiting | returned | killed => exact .inr trivial
  | _ => rw [hpc] at h; exact h.elim

theorem leftToDo_of_ending (h : Ending w.parent.pc) : leftToDo w = totalLoad w := by
  unfold leftToDo totalLoad
  cases hpc : w.parent.pc with
  | selected nsel rset => rw [hpc] at h; exact h.elim
  | _ => rfl

/-- What a step comes to from then on. -/
structure OnTheWay (w w' : World n) (l : Label n) : Prop where
  leaving : Leaving w'.parent
  /-- Nobody else is accepted. -/
  accepted : w'.accepted = w.accepted
  /-- The processes' own steps leave less to do. -/
  less : Own l → leftToDo w' < leftToDo w
  /-- Everything else changes nothing about it. -/
  idle : ¬ Own l → w'.parent.pc = w.parent.pc ∧ w'.node = w.node

/-- A worker's step, wherever the parent is. -/
theorem leftToDo_worker {i : Fin n} {call : WorkerCall} {nd : Node}
    (hs : (w.node i).step call = some nd) : leftToDo (w.setNode i nd) < leftToDo w := by
  have hsum := sum_load_setNode w i nd
  have hload := load_step hs
  unfold leftToDo
  rw [setNode_parent]
  omega

theorem onTheWay {l : Label n} (h : Leaving w.parent) (hok : FaultFree w l)
    (hs : w.step l = some w') : OnTheWay w w' l := by
  rcases h.cases with ⟨nsel, rset, hpc, hstop⟩ | hend
  · cases l with
    | parent call =>
        obtain ⟨p, u, hp, hu, rfl⟩ := World.step_parent hs
        cases hp with
        | @test nsel rset hpc' =>
            cases hu
            have hout : w.parent.afterTest nsel rset = .terminating (List.finRange n) :=
              if_pos hstop
            refine ⟨?_, rfl, fun _ => ?_, fun hnot => absurd trivial hnot⟩
            · exact leaving_of_ending (by simp only [hout]; trivial)
            · have hbefore : endLoad w.parent.pc = 6 * n + 3 := by rw [hpc]; rfl
              have hafter : endLoad (.terminating (List.finRange n) : Pc n) = 6 * n + 2 := by
                simp [endLoad, parentLoad]
              simp only [leftToDo, hout]
              omega
        | sigint =>
            cases hu
            have hsame : Parent.afterSignal w.parent.pc = w.parent.pc := by rw [hpc]; rfl
            refine ⟨?_, rfl, fun hown => hown.elim, fun _ => ⟨hsame, rfl⟩⟩
            simp [Leaving, Parent.afterSignal, hpc]
        | enter hpc' | overrun hpc' _ | scanned hpc' | skip hpc' _ | select hpc' | ready hpc' _ _
        | failed hpc' | accept hpc' | submit hpc' _ _ | submitKilled hpc' _ | close hpc'
        | readEof hpc' _ | free hpc' _ _ | stopped hpc' | stop hpc' _ | stopKilled hpc' | ret hpc'
        | reap hpc' => rw [hpc] at hpc'; cases hpc'
    | worker i call =>
        obtain ⟨nd, hnd, rfl⟩ := World.step_worker hs
        exact ⟨h, rfl, fun _ => leftToDo_worker hnd, fun hnot => absurd trivial hnot⟩
    | arrive => cases hs; exact ⟨h, rfl, fun hown => hown.elim, fun _ => ⟨rfl, rfl⟩⟩
    | die i | stderr i b => cases hok
  · have hstep := end_step_cases hend hs
    have hend' := ending_step hend hstep
    refine ⟨leaving_of_ending hend', ?_, fun hown => ?_, fun hnot => ?_⟩
    · cases hstep <;> rfl
    · rw [leftToDo_of_ending hend, leftToDo_of_ending hend']
      exact (totalLoad_step hstep).2 hown
    · cases hstep with
      | sigint | arrive => exact ⟨rfl, rfl⟩
      | die _ | stderr => cases hok
      | tell _ _ | refused _ _ | toldAll _ | reap _ _ _ | ret _ _ | worker _ =>
          exact absurd trivial hnot

/-! ## The callbacks in it -/

/-- No fault, and no `read` fails. Signals may come. -/
def Calm (e : Echo n) : EchoLabel n → Prop
  | .sys l => FaultFree e.world l
  | .callback _ call => call ≠ .read none
  | _ => True

instance (e : Echo n) : (l : EchoLabel n) → Decidable (Calm e l)
  | .sys l => inferInstanceAs (Decidable (FaultFree e.world l))
  | .callback _ call => inferInstanceAs (Decidable (call ≠ .read none))
  | .send .. | .finish _ => isTrue trivial

/-- The echo service without faults and failures. -/
abbrev calmEcho (c : Numbering n) : Lts (Echo n) (EchoLabel n) := (Echo.lts c).within Calm

/-- The action is a step of this process. A signal is not one of the parent's. -/
def EchoOwn (p : Option (Fin n)) (l : EchoLabel n) : Prop :=
  EchoActs p l ∧ l ≠ .sys (.parent .sigint)

theorem Calm.faultFree {l : EchoLabel n} (h : Calm e l) : EchoFaultFree e l := by
  cases l with
  | sys l => exact h
  | callback i call | send k bs | finish k => trivial

theorem Calm.not_failed {l : EchoLabel n} (h : Calm e l) (i : Fin n) :
    l ≠ .callback i (.read none) := by
  rintro rfl
  exact h rfl

theorem EchoUndisturbed.calm {l : EchoLabel n} (h : EchoUndisturbed e l) : Calm e l := by
  cases l with
  | sys l => exact undisturbed_faultFree _ l h
  | callback i call => exact h
  | send k bs | finish k => trivial

/-- What holds throughout a calm behaviour. -/
structure CalmInv (c : Numbering n) (e : Echo n) : Prop where
  world : Inv c e.world
  echo : EchoInv e
  reads : NoFailure e

theorem calmInv_step {l : EchoLabel n} (h : CalmInv c e) (hcalm : Calm e l)
    (hs : e.step l = some e') : CalmInv c e' := by
  obtain ⟨hi, he⟩ := echoInv_step ⟨h.world, h.echo⟩ hcalm.faultFree hs
  exact ⟨hi, he, noFailure_step h.reads hcalm.not_failed hs⟩

theorem calmInv_always {ρ : (calmEcho c).Trace} (hinit : (calmEcho c).init (ρ.state 0)) (t : Nat) :
    CalmInv c (ρ.state t) := by
  refine Trace.always (CalmInv c) ?_ ?_ t
  · obtain ⟨cmd, mem, heq⟩ := hinit
    rw [heq]
    exact ⟨inv_init c cmd, echoInv_start cmd mem, fun k => List.not_mem_nil⟩
  · intro t l hi hl
    obtain ⟨hcalm, hs⟩ := step_within.mp (ρ.act t l hl)
    exact calmInv_step hi hcalm hs

/-- The variant. Entering a callback is a step of the system that adds three calls. -/
def shutdownLoad (e : Echo n) : Nat := 4 * leftToDo e.world + ∑ i, callsLeft (e.callback i)

theorem sum_callsLeft_entered (e : Echo n) (l : Label n) :
    ∑ i, callsLeft (e.entered l i) ≤ ∑ i, callsLeft (e.callback i) + 3 := by
  cases l with
  | worker i call =>
      cases call with
      | callback conn =>
          have hsum := PointUpdate.sum_comp_update callsLeft e.callback i
            ((e.callback i).enter conn)
          have henter : callsLeft ((e.callback i).enter conn) = 3 := rfl
          simp only [Echo.entered]
          omega
      | _ => exact Nat.le_add_right _ _
  | _ => exact Nat.le_add_right _ _

theorem entered_of_not_own {l : Label n} (h : ¬ Own l) : e.entered l = e.callback := by
  cases l with
  | worker i call => exact absurd trivial h
  | parent call | arrive | die i | stderr i b => rfl

/-! ## Who can go on -/

/-- The parent leads on until it waits, and again when all workers have ended. In between those
do that have not. -/
def LeadsOn : Option (Fin n) → World n → Prop
  | none, w => w.parent.pc = .waiting → ∀ i, (w.node i).proc.gone = true
  | some i, w => w.parent.pc = .waiting ∧ (w.node i).proc.gone = false

theorem exists_leadsOn (w : World n) : ∃ p, LeadsOn p w := by
  by_cases hwait : w.parent.pc = .waiting ∧ ∃ i, (w.node i).proc.gone = false
  · obtain ⟨hpc, i, halive⟩ := hwait
    exact ⟨some i, hpc, halive⟩
  · refine ⟨none, fun hpc i => ?_⟩
    by_contra hgone
    exact hwait ⟨hpc, i, Bool.eq_false_iff.mpr hgone⟩

/-- The parent's next step, where it leads on. -/
theorem parent_leads (h : Inv c w) (hleaving : Leaving w.parent) (hpc : w.parent.pc ≠ .returned)
    (hlead : LeadsOn none w) :
    ∃ call, call ≠ .sigint ∧ (w.step (.parent call)).isSome = true := by
  have hctl := h.control
  unfold Leaving at hleaving
  cases hw : w.parent.pc with
  | selected nsel rset => exact ⟨.tau, by simp, by simp [World.step, Parent.step, kernel, hw]⟩
  | terminating is =>
      cases is with
      | nil => exact ⟨.tau, by simp, by simp [World.step, Parent.step, kernel, hw]⟩
      | cons i is =>
          have halive : (w.node i).proc.gone = false := h.not_gone (by simp [hw, stopSent])
          exact ⟨.write i cmdStop .ok, by simp,
            by simp [World.step, Parent.step, kernel, hw, halive]⟩
  | waiting =>
      by_cases hall : ∀ i, (w.node i).reaped = true
      · exact ⟨.wait none, by simp, by simp [World.step, Parent.step, kernel, hw, hall]⟩
      · obtain ⟨i, hi⟩ := not_forall.mp hall
        have hgone := hlead hw i
        exact ⟨.wait (some i), by simp, by simp [World.step, Parent.step, kernel, hw, hgone, hi]⟩
  | returned => exact absurd hw hpc
  | killed => rw [hw] at hctl; exact hctl.elim
  | _ => rw [hw] at hleaving; exact hleaving.elim

/-- A worker that has been told to stop and has not stopped can go on. -/
theorem Phase.not_stuck {sent : List Conn} {status : Int} {nd : Node}
    (h : Phase true sent status nd) (halive : nd.proc.gone = false) : ¬ nd.Stuck := by
  rintro (hgone | ⟨hpc, hin⟩)
  · rw [halive] at hgone
    cases hgone
  · cases h with
    | idle hp | queued hp | reported hp => cases hin
    | received hp | running hp | returned hp | closed hp | exited _ hp | exitedReported _ hp =>
        rw [hp] at hpc
        cases hpc

/-- **Who leads on can go on**, if the clients that were accepted have talked. -/
theorem CalmInv.enabled (h : CalmInv c e) (hleaving : Leaving e.world.parent)
    (htalked : ∀ k ∈ e.world.accepted, Talked k e) (hpc : e.world.parent.pc ≠ .returned)
    {p : Option (Fin n)} (hp : LeadsOn p e.world) :
    ∃ l, EchoOwn p l ∧ ((calmEcho c).step e l).isSome = true := by
  cases p with
  | none =>
      obtain ⟨call, hne, hsome⟩ := parent_leads h.world hleaving hpc hp
      refine ⟨.sys (.parent call), ⟨⟨call, rfl⟩, by simpa using hne⟩, ?_⟩
      have hready : e.Ready (.parent call) := trivial
      exact isSome_within rfl (isSome_sys hready hsome)
  | some i =>
      obtain ⟨hwait, halive⟩ := hp
      have hphase := h.world.phase i
      rw [hwait] at hphase
      by_cases hin : (e.world.node i).proc.pc = .inCallback
      · -- the callback has its client's bytes before it
        obtain ⟨k, _, hengaged⟩ := hphase.engaged_eq hin
        have hk := h.world.accepted_of_started (h.world.mem_started.mpr (.inr ⟨_, hengaged⟩))
        obtain ⟨l, hacts, hu, hsome⟩ := exists_call h.world h.echo hengaged (htalked k hk)
        refine ⟨l, ⟨hacts, ?_⟩, isSome_within hu.calm hsome⟩
        rintro rfl
        obtain ⟨_, heq⟩ := hacts
        cases heq
      · obtain ⟨call, hcall⟩ := Node.exists_step (hphase.not_stuck halive)
        obtain ⟨nd, hnd⟩ := Option.isSome_iff_exists.mp hcall
        refine ⟨.sys (.worker i call), ⟨⟨call, rfl⟩, by simp⟩, ?_⟩
        refine isSome_within rfl (isSome_sys (ready_of_not_inCallback hin hnd) ?_)
        simp [World.step, hnd]

/-! ## Whole behaviours -/

theorem LeadsOn.congr {p : Option (Fin n)} (h : LeadsOn p w) (hpc : w'.parent.pc = w.parent.pc)
    (hnode : w'.node = w.node) : LeadsOn p w' := by
  cases p with
  | none => intro hwait; rw [hnode]; rw [hpc] at hwait; exact h hwait
  | some i => exact ⟨hpc.trans h.1, by rw [hnode]; exact h.2⟩

/-- **Every step of a process leaves less to do, and nothing else changes who leads on.** -/
theorem shutdownLoad_step {l : EchoLabel n} (hleaving : Leaving e.world.parent) (hcalm : Calm e l)
    (hs : e.step l = some e') :
    shutdownLoad e' < shutdownLoad e ∨ shutdownLoad e' = shutdownLoad e ∧
      ∀ p, LeadsOn p e.world → LeadsOn p e'.world ∧ ¬ EchoOwn p l := by
  unfold shutdownLoad
  cases l with
  | sys l =>
      obtain ⟨_, hw, _, hcallback, _⟩ := Echo.step_sys hs
      have hway := onTheWay hleaving hcalm hw
      rw [hcallback]
      by_cases hown : Own l
      · have hless := hway.less hown
        have hcalls := sum_callsLeft_entered e l
        exact .inl (by omega)
      · obtain ⟨hpc, hnode⟩ := hway.idle hown
        refine .inr ⟨?_, fun p hp => ⟨hp.congr hpc hnode, ?_⟩⟩
        · rw [entered_of_not_own hown, leftToDo, leftToDo, hpc, hnode]
        · rintro ⟨hacts, hne⟩
          refine hown ?_
          cases p with
          | none =>
              obtain ⟨call, rfl⟩ := hacts
              cases call with
              | sigint => exact absurd rfl hne
              | _ => trivial
          | some i => obtain ⟨call, rfl⟩ := hacts; trivial
  | callback i call =>
      obtain ⟨_, f, k, s, _, hstep, rfl⟩ := Echo.step_callback hs
      have hsum := PointUpdate.sum_comp_update callsLeft e.callback i f
      have hcall := callsLeft_step hstep
      refine .inl ?_
      show 4 * leftToDo e.world + ∑ j, callsLeft (Function.update e.callback i f j) < _
      omega
  | send k bs =>
      obtain ⟨_, rfl⟩ := Echo.step_send hs
      exact .inr ⟨rfl, fun p hp => ⟨hp, fun hown => hown.1⟩⟩
  | finish k =>
      obtain ⟨_, rfl⟩ := Echo.step_finish hs
      exact .inr ⟨rfl, fun p hp => ⟨hp, fun hown => hown.1⟩⟩

/-- The parent stays on its way out, and accepts nobody. -/
theorem leaving_echo_step {l : EchoLabel n} (h : Leaving e.world.parent) (hcalm : Calm e l)
    (hs : (Echo.lts c).step e l = some e') :
    Leaving e'.world.parent ∧ e'.world.accepted = e.world.accepted := by
  cases l with
  | sys l =>
      have hway := onTheWay h hcalm (Echo.step_sys hs).2.1
      exact ⟨hway.leaving, hway.accepted⟩
  | callback i call | send k bs | finish k =>
      rw [(Echo.projects c).hidden hs rfl]
      exact ⟨h, rfl⟩

/-- When it has returned, it has. -/
theorem returned_echo_step {l : EchoLabel n} (h : e.world.parent.pc = .returned)
    (hs : (Echo.lts c).step e l = some e') : e'.world.parent.pc = .returned := by
  cases l with
  | sys l =>
      have hend : Ending e.world.parent.pc := by rw [h]; trivial
      rw [ended_step (.inl h) (end_step_cases hend (Echo.step_sys hs).2.1), h]
  | callback i call | send k bs | finish k =>
      rw [(Echo.projects c).hidden hs rfl]
      exact h

/-- **On its way out the parent returns, once everybody accepted has talked.** -/
theorem returns_of_talked {ρ : (calmEcho c).Trace} (hfair : ∀ p, ρ.Fair (EchoOwn p)) :
    ρ.LeadsTo
      (fun e => CalmInv c e ∧ Leaving e.world.parent ∧ ∀ k ∈ e.world.accepted, Talked k e)
      (fun e => e.world.parent.pc = .returned) := by
  refine Trace.leadsTo_of_helpful (m := shutdownLoad) (H := fun p e =>
    LeadsOn p e.world ∧ e.world.parent.pc ≠ .returned) hfair ⟨?_, ?_, ?_⟩
  · intro e _ hpc
    obtain ⟨p, hp⟩ := exists_leadsOn e.world
    exact ⟨p, hp, hpc⟩
  · rintro e p ⟨hi, hleaving, htalked⟩ ⟨hp, hpc⟩
    exact hi.enabled hleaving htalked hpc hp
  · rintro e l e' ⟨hi, hleaving, htalked⟩ _ hstep
    obtain ⟨hcalm, hs⟩ := step_within.mp hstep
    obtain ⟨hleaving', hacc⟩ := leaving_echo_step hleaving hcalm hs
    by_cases hpc' : e'.world.parent.pc = .returned
    · exact .inl hpc'
    · refine .inr ⟨⟨calmInv_step hi hcalm hs, hleaving', ?_⟩, ?_⟩
      · rw [hacc]
        exact fun k hk => (htalked k hk).step hs
      · refine (shutdownLoad_step hleaving hcalm hs).imp_right ?_
        rintro ⟨heq, hkeep⟩
        exact ⟨heq, fun p hp => ⟨⟨(hkeep p hp.1).1, hpc'⟩, (hkeep p hp.1).2⟩⟩

/-- When the parent has returned, everybody accepted has been through a callback. -/
theorem Inv.returned_of_accepted (h : Inv c w) (hpc : w.parent.pc = .returned) {k : Conn}
    (hk : k ∈ w.accepted) : ∃ i, k ∈ (w.node i).log.returned := by
  have hctl := h.control
  rw [hpc] at hctl
  obtain ⟨hreaped, _, hsub, _⟩ := hctl
  rw [← hsub] at hk
  obtain ⟨⟨k, i⟩, hmem, rfl⟩ := List.mem_map.mp hk
  refine ⟨i, ?_⟩
  obtain ⟨_, _, _, hlog⟩ := (h.phase i).gone_done (.inr (hreaped i))
  rw [hlog]
  exact (abs w).mem_assignedTo.mpr hmem

/--
**Once a stop request is heard, the server returns exactly if everybody accepted talks.**

In every fair behaviour without faults and failing reads, whenever the signal comes
and whatever the clients do; those who have not been accepted by then do not count.
-/
theorem stop_awaits_accepted (c : Numbering n) (ρ : (calmEcho c).Trace)
    (hinit : (calmEcho c).init (ρ.state 0)) (hfair : ∀ p, ρ.Fair (EchoOwn p)) (t : Nat)
    (hsigint : ρ.label t = some (.sys (.parent .sigint)))
    (hheard : Heard (ρ.state t).world.parent.pc) :
    (∃ u, (ρ.state u).world.parent.pc = .returned) ↔
      ∀ k ∈ (ρ.state t).world.accepted, ∃ u, Talked k (ρ.state u) := by
  have hinv := calmInv_always hinit
  -- from here on the parent is on its way out
  have hway : ∀ u, t + 1 ≤ u → Leaving (ρ.state u).world.parent
      ∧ (ρ.state u).world.accepted = (ρ.state t).world.accepted := by
    intro u hu
    refine ρ.stable (fun e => Leaving e.world.parent
      ∧ e.world.accepted = (ρ.state t).world.accepted) hu ?_ ?_
    · have hs : (ρ.state t).step (.sys (.parent .sigint)) = some (ρ.state (t + 1)) :=
        (step_within.mp (ρ.act t _ hsigint)).2
      obtain ⟨p, u, hp, hu, heq⟩ := World.step_parent (Echo.step_sys hs).2.1
      cases hp
      cases hu
      rw [heq]
      exact ⟨leaving_of_heard hheard rfl, rfl⟩
    · rintro v l ⟨hleaving, hacc⟩ hl
      obtain ⟨hcalm, hs⟩ := step_within.mp (ρ.act v l hl)
      obtain ⟨hleaving', hacc'⟩ := leaving_echo_step hleaving hcalm hs
      exact ⟨hleaving', hacc'.trans hacc⟩
  constructor
  · rintro ⟨u, hu⟩ k hk
    have hle := Nat.le_max_right u (t + 1)
    have hret : (ρ.state (max u (t + 1))).world.parent.pc = .returned := by
      refine ρ.stable (fun e => e.world.parent.pc = .returned) (Nat.le_max_left u (t + 1)) hu ?_
      intro v l hv hl
      exact returned_echo_step hv (step_within.mp (ρ.act v l hl)).2
    rw [← (hway _ hle).2] at hk
    have hi := hinv (max u (t + 1))
    obtain ⟨i, hover⟩ := hi.world.returned_of_accepted hret hk
    exact ⟨_, talked_of_answered hi.echo hi.reads (hi.echo.finished i k hover)⟩
  · intro htalk
    obtain ⟨v, htv, hv⟩ := ρ.exists_forall_mem Talked (t + 1)
      (fun k v l hk hl => hk.step (step_within.mp (ρ.act v l hl)).2) htalk
    obtain ⟨hleaving, hacc⟩ := hway v htv
    obtain ⟨u, _, hu⟩ := returns_of_talked hfair v ⟨hinv v, hleaving, by rw [hacc]; exact hv⟩
    exact ⟨u, hu⟩

/-- With the parent gone and every worker stuck, no callback is left either. -/
theorem no_echo_own_step (hpc : e.world.parent.pc = .returned)
    (hstuck : ∀ i, (e.world.node i).Stuck) {p : Option (Fin n)} {l : EchoLabel n}
    (hown : EchoOwn p l) : (calmEcho c).step e l = none := by
  obtain ⟨hacts, hne⟩ := hown
  cases hs : (calmEcho c).step e l with
  | none => rfl
  | some e' =>
      exfalso
      have hstep : e.step l = some e' := (step_within.mp hs).2
      cases l with
      | sys l =>
          have hw := (Echo.step_sys hstep).2.1
          have hnone := no_own_step (.inl hpc) hstuck l
          cases l with
          | parent call =>
              cases call with
              | sigint => exact hne rfl
              | _ => rw [hnone trivial] at hw; cases hw
          | worker i call => rw [hnone trivial] at hw; cases hw
          | arrive | die i | stderr i b =>
              cases p with
              | none => obtain ⟨call, heq⟩ := hacts; cases heq
              | some i => obtain ⟨call, heq⟩ := hacts; cases heq
      | callback i call =>
          obtain ⟨hin, _⟩ := Echo.step_callback hstep
          rcases hstuck i with hgone | ⟨hread, _⟩
          · simp [WorkerProc.gone, hin] at hgone
          · rw [hin] at hread
            cases hread
      | send k bs | finish k => exact hacts

/-- The signal comes while the only worker waits for its client to send something, and the client
does; another client is left waiting. -/
theorem stop_awaits_accepted_interruptedEcho :
    ∃ ρ : (calmEcho Numbering.oneWorker).Trace,
      (ρ.state 12).world.accepted = [0] ∧
        ((∃ u, (ρ.state u).world.parent.pc = .returned) ↔
          ∀ k ∈ (ρ.state 12).world.accepted, ∃ u, Talked k (ρ.state u)) := by
  obtain ⟨e, hrun, hpc, hstuck⟩ : ∃ e, (Echo.lts .oneWorker).Run Calm
      (Echo.start .oneWorker (fun _ => 0) fun _ _ => 0) interruptedEcho e ∧
        e.world.parent.pc = .returned ∧ ∀ i, (e.world.node i).Stuck :=
    Lts.exists_run_of_exec (by decide +kernel)
  have hin := hrun.within
  have hfair : ∀ p, hin.trace.Fair (EchoOwn p) := fun p =>
    hin.trace_fair fun l hown => no_echo_own_step hpc hstuck hown
  have hat : ∀ d, d = (calmEcho Numbering.oneWorker).play
      (Echo.start .oneWorker (fun _ => 0) fun _ _ => 0) interruptedEcho 12 →
        d.world.parent.pc = .inSelect {4} ∧ d.world.accepted = [0] := by
    rintro d rfl
    decide +kernel
  obtain ⟨hselect, hacc⟩ := hat (hin.trace.state 12) rfl
  refine ⟨hin.trace, hacc, stop_awaits_accepted .oneWorker hin.trace ?_ hfair 12 rfl ?_⟩
  · rw [hin.trace_zero]
    exact ⟨_, _, rfl⟩
  · rw [hselect]
    trivial

end TcpServer.Proof
