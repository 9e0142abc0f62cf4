import TcpServer.Lib.Fair
import TcpServer.Proof.Rest

/-!
# Whether the shutdown completes

`worker_pool_workers_terminate` writes `'s'` to every worker and then waits for
all of them. Workers may have died before, or die at any moment in between.

A worker that has died is no obstacle to the waiting, only to the writing: a
write to a socket whose peer is gone raises `SIGPIPE`, which nothing in the
program ignores, and the parent is gone before it has told the workers after it.
So the shutdown completes exactly if every worker is alive when its turn comes
(`shutdown_completes_iff`); afterwards it may die as it likes.

For the direction that needs an argument, `load` bounds what is left to do:
messages not received, the rest of a job, the `wait` for the worker. Every step
of the parent or of a worker makes it smaller, and one of them is possible as
long as the parent has not returned.
-/

namespace TcpServer.Proof

open TcpServer World

variable {n : Nat} {c : Numbering n}

/-- The steps of the processes themselves; clients, signals and deaths come from outside. -/
def Own : Label n → Prop
  | .parent .sigint => False
  | .parent _ => True
  | .worker _ _ => True
  | _ => False

/-- The parent has written `'s'` to worker `i` before `t`. -/
def Wrote (ρ : (World.lts c).Trace) (t : Nat) (i : Fin n) : Prop :=
  ∃ u < t, ρ.label u = some (.parent (.write i cmdStop .ok))

/-- Worker `i` had not survived until its turn, before `t`. -/
def DeadAtTurn (ρ : (World.lts c).Trace) (t : Nat) (i : Fin n) : Prop :=
  ∃ u < t, (∃ is, (ρ.state u).parent.pc = .terminating (i :: is)) ∧
    ((ρ.state u).node i).proc.gone = true

/-- The parent returns, with every worker collected, and told to stop if it had survived. -/
def Completes (ρ : (World.lts c).Trace) : Prop :=
  ∃ t, (ρ.state t).parent.pc = .returned ∧ (∀ i, ((ρ.state t).node i).reaped = true) ∧
    ∀ i, Wrote ρ t i ∨ DeadAtTurn ρ t i

/-- Every worker is alive when the parent writes to it. -/
def AliveWhenTold (ρ : (World.lts c).Trace) : Prop :=
  ∀ t i b ret, ρ.label t = some (.parent (.write i b ret)) →
    ((ρ.state t).node i).proc.gone = false

/-! ## What is left to do -/

/-- What a worker can still do, and whether it has been collected. -/
def load (nd : Node) : Nat :=
  (if nd.proc.gone = true then 0 else toGo nd.proc.pc + 5 * nd.inbox.length)
    + if nd.reaped = true then 0 else 1

/-- What the parent has still to do. -/
def parentLoad : Pc n → Nat
  | .terminating is => 6 * is.length + 2
  | .waiting => 1
  | _ => 0

/-- What is left to do in the whole system. -/
def totalLoad (w : World n) : Nat := parentLoad w.parent.pc + ∑ i, load (w.node i)

/-- **Every step of a worker makes its load smaller.** -/
theorem load_step {nd nd' : Node} {call : WorkerCall} (h : nd.step call = some nd') :
    load nd' < load nd := by
  unfold load
  cases Node.step_cases h with
  | plumb hpc => simp [WorkerProc.gone, hpc, toGo]
  | @recv byte ms hpc hin =>
      have hgo := toGo_dispatchCmd ⟨.reading, byte, -1⟩
      have hgone : nd.proc.gone = false := by simp [WorkerProc.gone, hpc]
      have hread : toGo nd.proc.pc = 0 := by rw [hpc]; rfl
      simp only [hgone, hread, hin, List.length_cons, Bool.false_eq_true, if_false]
      split <;> omega
  | @recvFile byte k fd ms hpc hin hfd =>
      have hgo := toGo_dispatchCmd ⟨.reading, byte, fd⟩
      have hgone : nd.proc.gone = false := by simp [WorkerProc.gone, hpc]
      have hread : toGo nd.proc.pc = 0 := by rw [hpc]; rfl
      simp only [hgone, hread, hin, List.length_cons, Bool.false_eq_true, if_false]
      split <;> omega
  | callback hpc | callbackRet hpc | close hpc | report hpc => simp [WorkerProc.gone, hpc, toGo]

theorem load_die (nd : Node) : load nd.die ≤ load nd := by
  unfold load
  have hgone : nd.die.proc.gone = true := by simp [Node.die, WorkerProc.gone]
  have hreaped : nd.die.reaped = nd.reaped := rfl
  rw [if_pos hgone, hreaped]
  omega

theorem load_push (nd : Node) (m : Msg) : load (nd.push m) ≤ load nd + 5 := by
  unfold load
  have hgone : (nd.push m).proc.gone = nd.proc.gone := rfl
  have hpc : (nd.push m).proc.pc = nd.proc.pc := rfl
  have hreaped : (nd.push m).reaped = nd.reaped := rfl
  have hlen : (nd.push m).inbox.length = nd.inbox.length + 1 := by simp [Node.push]
  rw [hgone, hpc, hreaped, hlen]
  split <;> omega

theorem load_reap {nd : Node} (h : nd.reaped = false) :
    load { nd with reaped := true } + 1 = load nd := by
  unfold load
  simp only [h, Bool.false_eq_true, if_false, if_true, Nat.add_zero]

/-- The load of the system with one worker replaced. -/
theorem sum_load_setNode (w : World n) (i : Fin n) (nd : Node) :
    ∑ j, load ((w.setNode i nd).node j) + load (w.node i) = ∑ j, load (w.node j) + load nd :=
  PointUpdate.sum_comp_update load w.node i nd

/-! ## The shutdown, step by step -/

/-- The worker has ended, or `'s'` is waiting for it. -/
def Told (nd : Node) : Prop := nd.proc.gone = true ∨ ⟨cmdStop, none⟩ ∈ nd.inbox

theorem told_step {nd nd' : Node} {call : WorkerCall} (h : Told nd)
    (hs : nd.step call = some nd') : Told nd' := by
  rcases h with hgone | hin
  · rw [(Node.Stuck.step_eq_none (.inl hgone) call)] at hs
    cases hs
  · cases Node.step_cases hs with
    | recv hpc hbox =>
        rw [hbox] at hin
        rcases List.mem_cons.mp hin with heq | hin
        · -- this is the `'s'`
          obtain ⟨rfl, -⟩ := Msg.mk.inj heq
          exact .inl (by simp [WorkerProc.dispatchCmd, WorkerProc.gone])
        · exact .inr hin
    | recvFile hpc hbox hfd =>
        rw [hbox] at hin
        rcases List.mem_cons.mp hin with heq | hin
        · cases heq
        · exact .inr hin
    | plumb hpc | callback hpc | callbackRet hpc | close hpc | report hpc => exact .inr hin

/-- The parent is in `worker_pool_workers_terminate`, or past it, or killed there. -/
def Ending : Pc n → Prop
  | .terminating _ => True
  | .waiting => True
  | .returned => True
  | .killed => True
  | _ => False

/-- Everything that can happen from then on. -/
inductive EndStep (w : World n) : Label n → World n → Prop
  | tell {i : Fin n} {is : List (Fin n)} (hpc : w.parent.pc = .terminating (i :: is))
      (halive : (w.node i).proc.gone = false) :
      EndStep w (.parent (.write i cmdStop .ok))
        { w.setNode i ((w.node i).push ⟨cmdStop, none⟩) with
          parent := { w.parent with pc := .terminating is } }
  | refused {i : Fin n} {is : List (Fin n)} (hpc : w.parent.pc = .terminating (i :: is))
      (hgone : (w.node i).proc.gone = true) :
      EndStep w (.parent (.write i cmdStop .sigpipe))
        { w with parent := { w.parent with pc := .killed } }
  | toldAll (hpc : w.parent.pc = .terminating []) :
      EndStep w (.parent .tau) { w with parent := { w.parent with pc := .waiting } }
  | reap {i : Fin n} (hpc : w.parent.pc = .waiting) (hgone : (w.node i).proc.gone = true)
      (hreaped : (w.node i).reaped = false) :
      EndStep w (.parent (.wait (some i))) (w.setNode i { w.node i with reaped := true })
  | ret (hpc : w.parent.pc = .waiting) (hall : ∀ i, (w.node i).reaped = true) :
      EndStep w (.parent (.wait none)) { w with parent := { w.parent with pc := .returned } }
  | sigint : EndStep w (.parent .sigint) { w with parent := { w.parent with serverStop := true } }
  | worker {i : Fin n} {call : WorkerCall} {nd : Node} (hs : (w.node i).step call = some nd) :
      EndStep w (.worker i call) (w.setNode i nd)
  | arrive :
      EndStep w .arrive { w with backlog := w.backlog ++ [w.arrivals], arrivals := w.arrivals + 1 }
  | die {i : Fin n} (halive : (w.node i).proc.gone = false) :
      EndStep w (.die i) (w.setNode i (w.node i).die)
  | stderr {i : Fin n} {b : UInt8} :
      EndStep w (.stderr i b) (w.setNode i { w.node i with outbox := (w.node i).outbox ++ [b] })

theorem end_step_cases {w w' : World n} {l : Label n} (h : Ending w.parent.pc)
    (hs : w.step l = some w') : EndStep w l w' := by
  cases l with
  | worker i call =>
      obtain ⟨nd, hnd, rfl⟩ := World.step_worker hs
      exact .worker hnd
  | arrive => cases hs; exact .arrive
  | die i =>
      simp only [World.step, Option.ite_none_left_eq_some, Option.some.injEq] at hs
      obtain ⟨halive, rfl⟩ := hs
      exact .die (Bool.eq_false_iff.mpr halive)
  | stderr i b =>
      simp only [World.step, Option.ite_none_left_eq_some, Option.some.injEq] at hs
      obtain ⟨_, rfl⟩ := hs
      exact .stderr
  | parent call =>
      obtain ⟨p, k, hp, hk, rfl⟩ := World.step_parent hs
      cases hp with
      | @stop i is ret hpc hret =>
          cases hk with
          | written halive => exact .tell hpc halive
          | notWritten hgone => exact absurd rfl hret
      | @stopKilled i is hpc =>
          cases hk with
          | notWritten hgone => exact .refused hpc hgone
      | stopped hpc => cases hk; exact .toldAll hpc
      | reap hpc =>
          cases hk with
          | reaped hgone hnot => exact .reap hpc hgone hnot
      | ret hpc =>
          cases hk with
          | noChildren hall => exact .ret hpc hall
      | sigint =>
          cases hk
          have hsame : Parent.afterSignal w.parent.pc = w.parent.pc := by
            cases hpc : w.parent.pc <;> rw [hpc] at h <;> first | rfl | exact h.elim
          rw [hsame]
          exact .sigint
      | enter hpc | test hpc | overrun hpc _ | scanned hpc | skip hpc _ | select hpc | ready hpc _ _
      | failed hpc | accept hpc | submit hpc _ _ | submitKilled hpc _ | close hpc | readEof hpc _
      | free hpc _ _ => rw [hpc] at h; exact h.elim

/-- **Every step of the processes makes what is left smaller, and nothing from outside adds to
it.** -/
theorem totalLoad_step {w w' : World n} {l : Label n} (h : EndStep w l w') :
    totalLoad w' ≤ totalLoad w ∧ (Own l → totalLoad w' < totalLoad w) := by
  unfold totalLoad
  cases h with
  | @tell i is hpc halive =>
      have hsum := sum_load_setNode w i ((w.node i).push ⟨cmdStop, none⟩)
      have hpush := load_push (w.node i) ⟨cmdStop, none⟩
      have hbefore : parentLoad w.parent.pc = 6 * (is.length + 1) + 2 := by rw [hpc]; rfl
      have hafter : parentLoad (.terminating is : Pc n) = 6 * is.length + 2 := rfl
      dsimp only [setNode] at hsum ⊢
      omega
  | @refused i is hpc hgone =>
      have hbefore : parentLoad w.parent.pc = 6 * (is.length + 1) + 2 := by rw [hpc]; rfl
      have hafter : parentLoad (.killed : Pc n) = 0 := rfl
      dsimp only
      omega
  | toldAll hpc =>
      have hbefore : parentLoad w.parent.pc = 2 := by rw [hpc]; rfl
      have hafter : parentLoad (.waiting : Pc n) = 1 := rfl
      dsimp only
      omega
  | @reap i hpc hgone hreaped =>
      have hsum := sum_load_setNode w i { w.node i with reaped := true }
      have hreap := load_reap hreaped
      dsimp only [setNode] at hsum ⊢
      omega
  | ret hpc hall =>
      have hbefore : parentLoad w.parent.pc = 1 := by rw [hpc]; rfl
      have hafter : parentLoad (.returned : Pc n) = 0 := rfl
      dsimp only
      omega
  | sigint => exact ⟨Nat.le_refl _, fun hown => hown.elim⟩
  | @worker i call nd hs =>
      have hsum := sum_load_setNode w i nd
      have hload := load_step hs
      dsimp only [setNode] at hsum ⊢
      omega
  | arrive => exact ⟨Nat.le_refl _, fun hown => hown.elim⟩
  | @die i halive =>
      have hsum := sum_load_setNode w i (w.node i).die
      have hload := load_die (w.node i)
      dsimp only [setNode] at hsum ⊢
      exact ⟨by omega, fun hown => hown.elim⟩
  | @stderr i b =>
      have hsum := sum_load_setNode w i { w.node i with outbox := (w.node i).outbox ++ [b] }
      have hload : load { w.node i with outbox := (w.node i).outbox ++ [b] } = load (w.node i) :=
        rfl
      dsimp only [setNode] at hsum hload ⊢
      exact ⟨by omega, fun hown => hown.elim⟩

/-- What holds while the parent shuts down and lives. -/
def ShuttingDown (w : World n) : Prop :=
  match w.parent.pc with
  | .terminating is => ∀ i, i ∉ is → Told (w.node i)
  | .waiting => ∀ i, Told (w.node i)
  | .returned => ∀ i, (w.node i).reaped = true
  | _ => False

theorem ShuttingDown.ending {w : World n} (h : ShuttingDown w) : Ending w.parent.pc := by
  unfold ShuttingDown at h
  cases hpc : w.parent.pc with
  | terminating is | waiting | returned => trivial
  | _ => rw [hpc] at h; exact h.elim

theorem told_setNode {w : World n} {i j : Fin n} {nd : Node}
    (hi : Told (w.node i) → Told nd) (hj : Told (w.node j)) : Told ((w.setNode i nd).node j) := by
  by_cases hji : j = i
  · subst hji
    rw [setNode_node_self]
    exact hi hj
  · rw [setNode_node_ne _ _ hji]
    exact hj

/-- A worker that is told stays told, and one that is collected stays collected. -/
theorem shuttingDown_setNode {w : World n} {i : Fin n} {nd : Node} (h : ShuttingDown w)
    (htold : Told (w.node i) → Told nd) (hreaped : (w.node i).reaped = true → nd.reaped = true) :
    ShuttingDown (w.setNode i nd) := by
  unfold ShuttingDown at h ⊢
  rw [setNode_parent]
  cases hpc : w.parent.pc with
  | terminating is =>
      rw [hpc] at h
      intro j hj
      exact told_setNode htold (h j hj)
  | waiting =>
      rw [hpc] at h
      intro j
      exact told_setNode htold (h j)
  | returned =>
      rw [hpc] at h
      intro j
      by_cases hji : j = i
      · subst hji
        rw [setNode_node_self]
        exact hreaped (h j)
      · rw [setNode_node_ne _ _ hji]
        exact h j
  | _ => rw [hpc] at h; exact h.elim

theorem shuttingDown_step {w w' : World n} {l : Label n} (h : ShuttingDown w)
    (hs : EndStep w l w')
    (halive : ∀ i b ret, l = .parent (.write i b ret) → (w.node i).proc.gone = false) :
    ShuttingDown w' := by
  cases hs with
  | @tell i is hpc _ =>
      unfold ShuttingDown at h
      rw [hpc] at h
      intro j hj
      by_cases hji : j = i
      · subst hji
        show Told ((w.setNode j ((w.node j).push ⟨cmdStop, none⟩)).node j)
        rw [setNode_node_self]
        exact .inr (by simp [Node.push])
      · refine told_setNode ?_ (h j (by simp [hji, hj]))
        rintro (hgone | hin)
        · exact .inl hgone
        · exact .inr (List.mem_append_left _ hin)
  | @refused i is hpc hgone =>
      have hlive := halive i _ _ rfl
      rw [hgone] at hlive
      cases hlive
  | toldAll hpc =>
      unfold ShuttingDown at h
      rw [hpc] at h
      intro i
      exact h i (by simp)
  | reap hpc hgone hreaped => exact shuttingDown_setNode h (fun _ => .inl hgone) (fun _ => rfl)
  | ret hpc hall => exact hall
  | sigint => exact h
  | worker hs =>
      refine shuttingDown_setNode h (fun ht => told_step ht hs) ?_
      intro hr
      rw [node_step_reaped hs]
      exact hr
  | arrive => exact h
  | die halive =>
      refine shuttingDown_setNode h ?_ (fun hr => hr)
      intro _
      exact .inl (by simp [Node.die, WorkerProc.gone])
  | stderr => exact shuttingDown_setNode h (fun ht => ht) (fun hr => hr)

/-- **As long as the parent has not returned, it or some worker can go on.** -/
theorem exists_own_step {w : World n} (h : ShuttingDown w) (hpc : w.parent.pc ≠ .returned) :
    ∃ l, Own l ∧ (w.step l).isSome = true := by
  unfold ShuttingDown at h
  cases hw : w.parent.pc with
  | terminating is =>
      cases is with
      | nil =>
          refine ⟨.parent .tau, trivial, ?_⟩
          simp [World.step, Parent.step, World.kernel, hw]
      | cons i is =>
          by_cases hgone : (w.node i).proc.gone = true
          · refine ⟨.parent (.write i cmdStop .sigpipe), trivial, ?_⟩
            simp [World.step, Parent.step, World.kernel, hw, hgone]
          · refine ⟨.parent (.write i cmdStop .ok), trivial, ?_⟩
            simp [World.step, Parent.step, World.kernel, hw, hgone]
  | waiting =>
      rw [hw] at h
      by_cases hall : ∀ i, (w.node i).reaped = true
      · refine ⟨.parent (.wait none), trivial, ?_⟩
        simp [World.step, Parent.step, World.kernel, hw, hall]
      · obtain ⟨i, hi⟩ := not_forall.mp hall
        by_cases hgone : (w.node i).proc.gone = true
        · refine ⟨.parent (.wait (some i)), trivial, ?_⟩
          simp [World.step, Parent.step, World.kernel, hw, hgone, hi]
        · -- it has its `'s'` before it, so it can move
          have hin : ⟨cmdStop, none⟩ ∈ (w.node i).inbox := (h i).resolve_left hgone
          have hmove : ¬ (w.node i).Stuck := by
            rintro (hg | ⟨_, hnil⟩)
            · exact hgone hg
            · rw [hnil] at hin; cases hin
          obtain ⟨call, hcall⟩ := Node.exists_step hmove
          refine ⟨.worker i call, trivial, ?_⟩
          rw [World.step, Option.isSome_map]
          exact hcall
  | returned => exact absurd hw hpc
  | _ => rw [hw] at h; exact h.elim

/-! ## Whole behaviours -/

variable {ρ : (World.lts c).Trace}

theorem ending_step {w w' : World n} {l : Label n} (h : Ending w.parent.pc)
    (hs : EndStep w l w') : Ending w'.parent.pc := by
  cases hs with
  | tell hpc _ | refused hpc _ | toldAll hpc | ret hpc _ => trivial
  | _ => exact h

theorem end_step_of_trace {t : Nat} {l : Label n} (hend : Ending (ρ.state t).parent.pc)
    (hl : ρ.label t = some l) : EndStep (ρ.state t) l (ρ.state (t + 1)) :=
  end_step_cases hend (ρ.act t l hl)

section Start

variable (hstart : (ρ.state 0).parent.pc = .terminating (List.finRange n))

include hstart

theorem ending_always (t : Nat) : Ending (ρ.state t).parent.pc := by
  refine Lts.Trace.always (fun w : World n => Ending w.parent.pc) ?_ ?_ t
  · rw [hstart]; trivial
  · intro t l hw hl
    exact ending_step hw (end_step_of_trace hw hl)

theorem shuttingDown_always (halive : AliveWhenTold ρ) (t : Nat) : ShuttingDown (ρ.state t) := by
  refine Lts.Trace.always ShuttingDown ?_ ?_ t
  · unfold ShuttingDown
    rw [hstart]
    intro i hi
    exact absurd (List.mem_finRange i) hi
  · intro t l hw hl
    refine shuttingDown_step hw (end_step_of_trace hw.ending hl) ?_
    intro i b ret heq
    rw [heq] at hl
    exact halive t i b ret hl

end Start

/-- Whom the parent has written to when it is at `pc`. -/
def WroteAt (ρ : (World.lts c).Trace) (t : Nat) : Pc n → Prop
  | .terminating is => ∀ i, i ∉ is → Wrote ρ t i
  | .waiting => ∀ i, Wrote ρ t i
  | .returned => ∀ i, Wrote ρ t i
  | _ => True

theorem Wrote.later {t : Nat} {i : Fin n} (h : Wrote ρ t i) : Wrote ρ (t + 1) i := by
  obtain ⟨u, hu, hl⟩ := h
  exact ⟨u, Nat.lt_succ_of_lt hu, hl⟩

theorem WroteAt.later {t : Nat} {pc : Pc n} (h : WroteAt ρ t pc) : WroteAt ρ (t + 1) pc := by
  cases pc with
  | terminating is => intro i hi; exact (h i hi).later
  | waiting | returned => intro i; exact (h i).later
  | _ => trivial

theorem wroteAt_step {w w' : World n} {l : Label n} {t : Nat} (hs : EndStep w l w')
    (hl : ρ.label t = some l) (h : WroteAt ρ t w.parent.pc) :
    WroteAt ρ (t + 1) w'.parent.pc := by
  have hlater := h.later
  cases hs with
  | @tell i is hpc _ =>
      rw [hpc] at hlater
      intro j hj
      by_cases hji : j = i
      · subst hji
        exact ⟨t, Nat.lt_succ_self t, hl⟩
      · exact hlater j (by simp [hji, hj])
  | refused hpc _ => trivial
  | toldAll hpc =>
      rw [hpc] at hlater
      intro i
      exact hlater i (by simp)
  | ret hpc _ => rw [hpc] at hlater; exact hlater
  | _ => exact hlater

theorem wroteAt_always (hstart : (ρ.state 0).parent.pc = .terminating (List.finRange n)) (t : Nat) :
    WroteAt ρ t (ρ.state t).parent.pc := by
  induction t with
  | zero =>
      rw [hstart]
      intro i hi
      exact absurd (List.mem_finRange i) hi
  | succ t ih =>
      cases hl : ρ.label t with
      | none => rw [ρ.pause t hl]; exact ih.later
      | some l => exact wroteAt_step (end_step_of_trace (ending_always hstart t) hl) hl ih

/-- Once the parent has returned, or been killed, it stays so. -/
theorem ended_step {w w' : World n} {l : Label n}
    (h : w.parent.pc = .returned ∨ w.parent.pc = .killed) (hs : EndStep w l w') :
    w'.parent.pc = w.parent.pc := by
  cases hs with
  | tell hpc _ | refused hpc _ | toldAll hpc | ret hpc _ =>
      rw [hpc] at h
      rcases h with h | h <;> cases h
  | _ => rfl

theorem ended_later (hstart : (ρ.state 0).parent.pc = .terminating (List.finRange n)) {t u : Nat}
    {pc : Pc n} (hpc : pc = .returned ∨ pc = .killed) (htu : t ≤ u)
    (ht : (ρ.state t).parent.pc = pc) : (ρ.state u).parent.pc = pc := by
  refine Lts.Trace.stable (fun w : World n => w.parent.pc = pc) htu ht ?_
  intro v l hv hl
  have hs := end_step_of_trace (ending_always hstart v) hl
  have hended : (ρ.state v).parent.pc = .returned ∨ (ρ.state v).parent.pc = .killed := by
    rw [hv]; exact hpc
  rw [ended_step hended hs]
  exact hv

/-- A write to a worker that is gone is the parent's last step. -/
theorem not_completes_of_gone (hstart : (ρ.state 0).parent.pc = .terminating (List.finRange n))
    {t : Nat} {i : Fin n} {b : UInt8} {ret : SendRet}
    (hl : ρ.label t = some (.parent (.write i b ret)))
    (hgone : ((ρ.state t).node i).proc.gone = true) : ¬ Completes ρ := by
  intro ⟨u, hret, _, _⟩
  have hs := end_step_of_trace (ending_always hstart t) hl
  -- what the parent is at before and after this step
  obtain ⟨hbefore, hafter⟩ : (ρ.state t).parent.pc ≠ .returned ∧
      (ρ.state (t + 1)).parent.pc = .killed := by
    generalize ρ.state (t + 1) = w' at hs ⊢
    cases hs with
    | tell hpc halive => rw [hgone] at halive; cases halive
    | refused hpc _ => exact ⟨by rw [hpc]; simp, rfl⟩
  rcases Nat.lt_or_ge t u with hlt | hge
  · have hkilled := ended_later hstart (.inr rfl) hlt hafter
    rw [hret] at hkilled
    cases hkilled
  · exact hbefore (ended_later hstart (.inl rfl) hge hret)

/--
**The shutdown completes exactly if every worker is alive when the parent writes to it.**

For every behaviour from the moment the server loop is left, in which the
processes are not stopped from going on: the callbacks return, and whoever can
move does at some time.
-/
theorem shutdown_completes_iff (c : Numbering n) (ρ : (World.lts c).Trace) (hfair : ρ.Fair Own)
    (hstart : (ρ.state 0).parent.pc = .terminating (List.finRange n)) :
    Completes ρ ↔ AliveWhenTold ρ := by
  constructor
  · intro hcompletes t i b ret hl
    by_contra hgone
    exact not_completes_of_gone hstart hl (by simpa using hgone) hcompletes
  · intro halive
    -- the load is the variant: it only falls, and something can go on until the parent returns
    obtain ⟨t, ht⟩ := Lts.Trace.eventually (fun w : World n => w.parent.pc = .returned) totalLoad
      hfair
      (fun t l hl => (totalLoad_step (end_step_of_trace (ending_always hstart t) hl)).1)
      (fun t l hl => (totalLoad_step (end_step_of_trace (ending_always hstart t) hl)).2)
      (fun t hgoal => exists_own_step (shuttingDown_always hstart halive t) hgoal)
    have hreaped := shuttingDown_always hstart halive t
    have hwrote := wroteAt_always hstart t
    unfold ShuttingDown at hreaped
    rw [ht] at hreaped hwrote
    exact ⟨t, ht, hreaped, fun i => .inl (hwrote i)⟩

/-- With the parent gone and every worker stuck, nothing happens any more of itself. -/
theorem no_own_step {w : World n} (hpc : w.parent.pc = .returned ∨ w.parent.pc = .killed)
    (hstuck : ∀ i, (w.node i).Stuck) (l : Label n) (hown : Own l) : w.step l = none := by
  cases hs : w.step l with
  | none => rfl
  | some w' =>
      exfalso
      have hend : Ending w.parent.pc := by rcases hpc with hpc | hpc <;> rw [hpc] <;> trivial
      cases end_step_cases hend hs with
      | tell hpc' _ | refused hpc' _ | toldAll hpc' | reap hpc' _ _ | ret hpc' _ =>
          rw [hpc'] at hpc
          rcases hpc with hpc | hpc <;> cases hpc
      | sigint | arrive | die _ | stderr => exact hown
      | @worker i call nd hnd =>
          rw [(hstuck i).step_eq_none call] at hnd
          cases hnd

/-- `SIGINT` reaches the sleeping parent; one worker is dead by then if `dead` says so. -/
def interrupted (dead : List (Label 2)) : List (Label 2) :=
  [.parent .tau, .parent .select] ++ dead ++ [.parent .sigint, .parent .tau]

/-- Both workers are told, stop and are collected; the first dies before it has received `'s'`. -/
theorem shutdown_completes_iff_interrupted :
    ∃ ρ : (World.lts Numbering.twoWorkers).Trace,
      (ρ.state 0).parent.pc = .terminating [0, 1] ∧ (Completes ρ ↔ AliveWhenTold ρ) := by
  obtain ⟨w, _, hpc, w', hw', hend, hstuck⟩ : ∃ w, (World.lts Numbering.twoWorkers).Run Lts.Any
      (World.start .twoWorkers fun _ => 0) (interrupted []) w ∧
        w.parent.pc = .terminating [0, 1] ∧
        ∃ w' ∈ (World.lts Numbering.twoWorkers).exec Lts.Any w
            [.parent (.write 0 cmdStop .ok), .die 0, .parent (.write 1 cmdStop .ok), .parent .tau,
              .worker 1 .plumb, .worker 1 (.ipcFdRead (.got cmdStop (-1))),
              .parent (.wait (some 0)), .parent (.wait (some 1)), .parent (.wait none)],
          w'.parent.pc = .returned ∧ ∀ i, (w'.node i).Stuck :=
    Lts.exists_run_of_exec (by decide +kernel)
  have hrun := Lts.run_of_exec hw'
  have hstart : (hrun.trace.state 0).parent.pc = .terminating [0, 1] := by
    rw [hrun.trace_zero]; exact hpc
  have hfair : hrun.trace.Fair Own := hrun.trace_fair (no_own_step (.inl hend) hstuck)
  exact ⟨hrun.trace, hstart, shutdown_completes_iff .twoWorkers hrun.trace hfair hstart⟩

/-- The first worker was dead already: the parent is killed, the second is never told. -/
theorem dead_worker_kills_shutdown :
    ¬ ∀ (n : Nat) (c : Numbering n) (ρ : (World.lts c).Trace), 1 ≤ n →
      (World.lts c).Reachable Lts.Any (ρ.state 0) → ρ.Fair Own →
      (ρ.state 0).parent.pc = .terminating (List.finRange n) → Completes ρ := by
  intro hevery
  obtain ⟨w, hw, hpc, w', hw', hend, hstuck⟩ : ∃ w, (World.lts Numbering.twoWorkers).Run Lts.Any
      (World.start .twoWorkers fun _ => 0) (interrupted [.die 0]) w ∧
        (w.parent.pc = .terminating [0, 1] ∧ (w.node 0).proc.gone = true) ∧
        ∃ w' ∈ (World.lts Numbering.twoWorkers).exec Lts.Any w
            [.parent (.write 0 cmdStop .sigpipe), .worker 1 .plumb],
          w'.parent.pc = .killed ∧ ∀ i, (w'.node i).Stuck :=
    Lts.exists_run_of_exec (by decide +kernel)
  have hrun := Lts.run_of_exec hw'
  have hstart : (hrun.trace.state 0).parent.pc = .terminating [0, 1] := by
    rw [hrun.trace_zero]; exact hpc.1
  have hreach : (World.lts Numbering.twoWorkers).Reachable Lts.Any (hrun.trace.state 0) := by
    rw [hrun.trace_zero]; exact ⟨_, _, ⟨_, rfl⟩, hw⟩
  have hfair : hrun.trace.Fair Own := hrun.trace_fair (no_own_step (.inr hend) hstuck)
  have hgone : ((hrun.trace.state 0).node 0).proc.gone = true := by
    rw [hrun.trace_zero]; exact hpc.2
  have hl : hrun.trace.label 0 = some (.parent (.write 0 cmdStop .sigpipe)) := rfl
  exact not_completes_of_gone hstart hl hgone
    (hevery 2 .twoWorkers hrun.trace (by decide) hreach hfair hstart)

end TcpServer.Proof
