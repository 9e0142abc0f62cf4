import TcpServer.Proof.Silence

/-!
# Clients that talk

In a fair behaviour whose calls succeed, everybody who connects is answered exactly
if everybody who connects talks: sends something, or says that there is nothing to
send. It takes two steps.

A worker comes back from its callback once the client has talked
(`callback_returns`): until then its own calls lead it on, and nobody else's can
undo that, since the connection is its own. And a behaviour of the echo service is
one of the system underneath (`worldTrace`), which is fair as well, because that
system's workers are only ever kept waiting by their callbacks. There everybody is
served (`serves_everyone_of_examined`).
-/

namespace TcpServer.Proof

open TcpServer World Lts

variable {n : Nat} {c : Numbering n} {e e' : Echo n}

/-- The system underneath is undisturbed, and no `read` fails. -/
def EchoUndisturbed (e : Echo n) : EchoLabel n → Prop
  | .sys l => Undisturbed e.world l
  | .callback _ call => call ≠ .read none
  | _ => True

instance (e : Echo n) : (l : EchoLabel n) → Decidable (EchoUndisturbed e l)
  | .sys l => inferInstanceAs (Decidable (Undisturbed e.world l))
  | .callback _ call => inferInstanceAs (Decidable (call ≠ .read none))
  | .send .. | .finish _ => isTrue trivial

/-- The echo service without faults, signals and failures. -/
abbrev undisturbedEcho (c : Numbering n) : Lts (Echo n) (EchoLabel n) :=
  (Echo.lts c).within EchoUndisturbed

/-- The action is a step of this process, in its callback or outside. -/
def EchoActs (p : Option (Fin n)) : EchoLabel n → Prop
  | .sys l => Acts p l
  | .callback i _ => p = some i
  | _ => False

/-- Client `k` has sent something or shut down its side. -/
def Talked (k : Conn) (e : Echo n) : Prop := (e.stream k).sent ≠ [] ∨ (e.stream k).eof = true

/-- Client `k` has had its exchange, and its connection is closed. -/
def Replied (k : Conn) (e : Echo n) : Prop := Served e.world k ∧ Answered (e.stream k)

/-- In every fair behaviour, all who connect are answered exactly if all who connect talk. -/
def AnswersWhoTalks (c : Numbering n) : Prop :=
  ∀ ρ : (undisturbedEcho c).Trace, (undisturbedEcho c).init (ρ.state 0) →
    (∀ p, ρ.Fair (EchoActs p)) →
    ((∀ k, ρ.LeadsTo (fun e => k < e.world.arrivals) (Replied k)) ↔
      ∀ k, ρ.LeadsTo (fun e => k < e.world.arrivals) (Talked k))

/-! ## What always holds -/

/-- No `read` has failed. -/
def NoFailure (e : Echo n) : Prop := ∀ k, none ∉ (e.stream k).reads

/-- What holds throughout an undisturbed behaviour. -/
structure EchoSane (c : Numbering n) (e : Echo n) : Prop where
  world : Sane c e.world
  echo : EchoInv e
  reads : NoFailure e

theorem noFailure_step {l : EchoLabel n} (h : NoFailure e)
    (hread : ∀ i, l ≠ .callback i (.read none)) (hs : e.step l = some e') : NoFailure e' := by
  have hset : ∀ {k s}, none ∉ s.reads → NoFailure (e.setStream k s) := by
    intro k s hnone k'
    show none ∉ (Function.update e.stream k s k').reads
    by_cases hkk : k' = k
    · subst hkk
      rw [Function.update_self]
      exact hnone
    · rw [Function.update_of_ne hkk]
      exact h k'
  cases l with
  | sys l =>
      obtain ⟨_, _, hstream, _⟩ := Echo.step_sys hs
      intro k
      rw [hstream]
      exact h k
  | callback i call =>
      obtain ⟨_, f, k, s, _, hstep, rfl⟩ := Echo.step_callback hs
      refine hset (k := k) ?_
      cases hstep with
      | failed hpc => exact absurd rfl (hread i)
      | read hpc _ _ _ =>
          intro hmem
          rcases List.mem_append.mp hmem with hmem | hmem
          · exact h k hmem
          · simp at hmem
      | hexdump hpc _ | refused hpc | write hpc _ _ => exact h k
  | send k bs =>
      obtain ⟨_, rfl⟩ := Echo.step_send hs
      exact hset (h k)
  | finish k =>
      obtain ⟨_, rfl⟩ := Echo.step_finish hs
      exact hset (h k)

theorem EchoUndisturbed.not_failed {l : EchoLabel n} (h : EchoUndisturbed e l) (i : Fin n) :
    l ≠ .callback i (.read none) := by
  rintro rfl
  exact h rfl

theorem EchoUndisturbed.faultFree {l : EchoLabel n} (h : EchoUndisturbed e l) :
    EchoFaultFree e l := by
  cases l with
  | sys l => exact undisturbed_faultFree _ l h
  | callback i call | send k bs | finish k => trivial

theorem echoSane_step {l : EchoLabel n} (h : EchoSane c e) (hu : EchoUndisturbed e l)
    (hs : e.step l = some e') : EchoSane c e' where
  world := by
    cases l with
    | sys l => exact sane_step h.world hu (Echo.step_sys hs).2.1
    | callback i call =>
        obtain ⟨_, f, k, s, _, _, rfl⟩ := Echo.step_callback hs
        exact h.world
    | send k bs =>
        obtain ⟨_, rfl⟩ := Echo.step_send hs
        exact h.world
    | finish k =>
        obtain ⟨_, rfl⟩ := Echo.step_finish hs
        exact h.world
  echo := (echoInv_step ⟨h.world.1, h.echo⟩ hu.faultFree hs).2
  reads := noFailure_step h.reads hu.not_failed hs

theorem echoSane_always {ρ : (undisturbedEcho c).Trace}
    (hinit : (undisturbedEcho c).init (ρ.state 0)) (t : Nat) : EchoSane c (ρ.state t) := by
  refine Trace.always (EchoSane c) ?_ ?_ t
  · obtain ⟨cmd, mem, heq⟩ := hinit
    rw [heq]
    exact ⟨⟨inv_init c cmd, running_init cmd⟩, echoInv_start cmd mem, fun k => List.not_mem_nil⟩
  · intro t l hsane hl
    obtain ⟨hu, hs⟩ := step_within.mp (ρ.act t l hl)
    exact echoSane_step hsane hu hs

/-! ## Back from the callback -/

/-- The calls that a callback has before it. -/
def callsLeft (f : Callback) : Nat :=
  match f.pc with
  | .reading => 3
  | .dumping => 2
  | .writing => 1
  | .done => 0

/-- **A callback whose client has talked can go on.** -/
theorem exists_call (h : Inv c e.world) (he : EchoInv e) {i : Fin n} {conn : Int} {k : Conn}
    (hengaged : engaged (e.world.node i) = some (conn, k)) (htalked : Talked k e) :
    ∃ l, EchoActs (some i) l ∧ EchoUndisturbed e l ∧ (e.step l).isSome = true := by
  have hpc := inCallback_of_engaged hengaged
  obtain ⟨hconn, hstage⟩ := he.running i conn k hengaged
  have hlook : (e.world.node i).fds.lookup (e.callback i).conn = some k := by
    obtain ⟨k', hfds, heq⟩ := (h.phase i).engaged_eq hpc
    rw [hengaged] at heq
    obtain ⟨hfd, rfl⟩ := Prod.mk.inj (Option.some.inj heq)
    rw [hfds, hconn, hfd, List.lookup_cons_self]
  -- a call of the callback that both it and the kernel accept
  have hcall : ∀ call, call ≠ .read none → (∃ f, serverConnectionCb (e.callback i) call = some f) →
      (∃ s, (e.stream k).kernel (e.callback i) call = some s) →
      ∃ l, EchoActs (some i) l ∧ EchoUndisturbed e l ∧ (e.step l).isSome = true := by
    rintro call hne ⟨f, hf⟩ ⟨s, hs⟩
    refine ⟨.callback i call, rfl, hne, ?_⟩
    simp [Echo.step, hpc, hlook, hf, hs]
  unfold Stage at hstage
  cases hcb : (e.callback i).pc with
  | reading =>
      rw [hcb] at hstage
      by_cases hpending : (e.stream k).pending = []
      · have heof : (e.stream k).eof = true := by
          refine htalked.resolve_left (not_not.mpr ?_)
          rw [he.sent k, hpending, Stream.taken, hstage.reads]
          rfl
        exact hcall (.read (some [])) (by simp) ⟨_, if_pos ⟨hcb, Nat.zero_le _⟩⟩
          ⟨_, if_pos ⟨List.nil_prefix, fun _ => ⟨hpending, heof⟩⟩⟩
      · refine hcall (.read (some ((e.stream k).pending.take rxSize))) (by simp) ?_ ?_
        · exact ⟨_, if_pos ⟨hcb, List.length_take_le _ _⟩⟩
        · refine ⟨_, if_pos ⟨List.take_prefix _ _, fun hnil => ?_⟩⟩
          rcases List.take_eq_nil_iff.mp hnil with hzero | hnil
          · cases hzero
          · exact absurd hnil hpending
  | dumping =>
      obtain ⟨s, ⟨enough, hreturns⟩, _⟩ := hexdump_returns
        (holds_block (e.callback i).rxBuffer (e.callback i).rxBytes) (some rxDesc)
      refine hcall (.hexdump enough) (by simp) ⟨_, if_pos ⟨hcb, ?_⟩⟩ ⟨_, rfl⟩
      simp [Callback.dumped, hreturns enough (Nat.le_refl _)]
  | writing => exact hcall (.write none) (by simp) ⟨_, if_pos hcb⟩ ⟨_, rfl⟩
  | done =>
      refine ⟨.sys (.worker i .callbackRet), ⟨_, rfl⟩, ?_, ?_⟩
      · show Undisturbed e.world (.worker i .callbackRet)
        rfl
      · simp [Echo.step, Echo.Ready, hcb, World.step, Node.step, WorkerProc.step, Node.kernel, hpc]

/-- In its callback a worker does nothing but come back from it. -/
theorem callbackRet_of_inCallback {nd nd' : Node} {call : WorkerCall}
    (hpc : nd.proc.pc = .inCallback) (hs : nd.step call = some nd') : call = .callbackRet := by
  cases Node.step_cases hs <;> simp_all

theorem callsLeft_step {f f' : Callback} {s s' : Stream} {call : CallbackCall}
    (h : Callback.Step f s call f' s') : callsLeft f' < callsLeft f := by
  cases h with
  | failed hpc | read hpc _ _ _ | hexdump hpc _ | refused hpc | write hpc _ _ =>
      simp [callsLeft, hpc]

/-- Who has talked has talked. -/
theorem Talked.step {k : Conn} {l : EchoLabel n} (h : Talked k e) (hs : e.step l = some e') :
    Talked k e' := by
  have hset : ∀ {j s}, ((e.stream j).sent ≠ [] → s.sent ≠ []) →
      ((e.stream j).eof = true → s.eof = true) → Talked k (e.setStream j s) := by
    intro j s hsent heof
    show (Function.update e.stream j s k).sent ≠ [] ∨ (Function.update e.stream j s k).eof = true
    by_cases hkj : k = j
    · subst hkj
      rw [Function.update_self]
      exact h.imp hsent heof
    · rw [Function.update_of_ne hkj]
      exact h
  cases l with
  | sys l =>
      obtain ⟨_, _, hstream, _⟩ := Echo.step_sys hs
      rw [Talked, hstream]
      exact h
  | callback i call =>
      obtain ⟨_, f, j, s, _, hstep, rfl⟩ := Echo.step_callback hs
      have hsent := (taken_pending_step hstep).1
      refine hset (j := j) (by rw [hsent]; exact id) ?_
      cases hstep <;> exact id
  | send j bs =>
      obtain ⟨_, rfl⟩ := Echo.step_send hs
      refine hset (fun hne hnil => hne ?_) id
      exact (List.append_eq_nil_iff.mp hnil).1
  | finish j =>
      obtain ⟨_, rfl⟩ := Echo.step_finish hs
      exact hset id fun _ => rfl

/-- **A worker comes back from its callback once its client has talked.** -/
theorem callback_returns {ρ : (undisturbedEcho c).Trace} (hfair : ∀ p, ρ.Fair (EchoActs p))
    (i : Fin n) : ρ.LeadsTo
      (fun e => EchoSane c e ∧ ∃ conn k, engaged (e.world.node i) = some (conn, k) ∧ Talked k e)
      (fun e => (e.world.node i).proc.pc ≠ .inCallback) := by
  refine Trace.leadsTo_of_helpful (m := fun e => callsLeft (e.callback i))
    (H := fun p _ => p = some i) hfair ⟨fun _ _ _ => ⟨some i, rfl⟩, ?_, ?_⟩
  · rintro e p ⟨hsane, conn, k, hengaged, htalked⟩ rfl
    obtain ⟨l, hacts, hu, hsome⟩ := exists_call hsane.world.1 hsane.echo hengaged htalked
    exact ⟨l, hacts, isSome_within hu hsome⟩
  · rintro e l e' ⟨hsane, conn, k, hengaged, htalked⟩ hin hstep
    obtain ⟨hu, hs⟩ := step_within.mp hstep
    have hsane' := echoSane_step hsane hu hs
    have htalked' := htalked.step hs
    have hpc := inCallback_of_engaged hengaged
    cases l with
    | sys l =>
        obtain ⟨hready, hw, _, hcallback, _⟩ := Echo.step_sys hs
        cases callStep hsane.world.1 hu.faultFree hw i with
        | enter hnone _ _ _ => rw [hnone] at hengaged; cases hengaged
        | leave _ hnone _ _ =>
            refine .inl fun hpc' => ?_
            obtain ⟨_, _, heq⟩ := (hsane'.world.1.phase i).engaged_eq hpc'
            rw [hnone] at heq
            cases heq
        | same henter hleave hsame _ _ =>
            refine .inr ⟨⟨hsane', conn, k, hsame.trans hengaged, htalked'⟩, .inr ⟨?_, ?_⟩⟩
            · show callsLeft (e'.callback i) = callsLeft (e.callback i)
              rw [hcallback, entered_same henter]
            · rintro p rfl
              refine ⟨rfl, ?_⟩
              rintro ⟨call, rfl⟩
              obtain ⟨nd, hnd, _⟩ := World.step_worker hw
              exact hleave (by rw [callbackRet_of_inCallback hpc hnd])
    | callback j call =>
        obtain ⟨_, f, k', s, _, hcall, rfl⟩ := Echo.step_callback hs
        refine .inr ⟨⟨hsane', conn, k, hengaged, htalked'⟩, ?_⟩
        by_cases hij : i = j
        · subst hij
          refine .inl ?_
          show callsLeft (Function.update e.callback i f i) < callsLeft (e.callback i)
          rw [Function.update_self]
          exact callsLeft_step hcall
        · refine .inr ⟨?_, ?_⟩
          · show callsLeft (Function.update e.callback j f i) = callsLeft (e.callback i)
            rw [Function.update_of_ne hij]
          · rintro p rfl
            exact ⟨rfl, fun heq => hij (Option.some.inj heq)⟩
    | send k' bs =>
        obtain ⟨_, rfl⟩ := Echo.step_send hs
        exact .inr ⟨⟨hsane', conn, k, hengaged, htalked'⟩, .inr ⟨rfl, fun p hp => ⟨hp, id⟩⟩⟩
    | finish k' =>
        obtain ⟨_, rfl⟩ := Echo.step_finish hs
        exact .inr ⟨⟨hsane', conn, k, hengaged, htalked'⟩, .inr ⟨rfl, fun p hp => ⟨hp, id⟩⟩⟩

/-! ## The system underneath -/

theorem undisturbedEcho_projects (c : Numbering n) :
    Projects (undisturbedEcho c) (undisturbed c) Echo.world EchoLabel.sys? where
  shown := by
    intro e l e' l' hstep hl
    obtain ⟨hu, hs⟩ := step_within.mp hstep
    refine step_within.mpr ⟨?_, (Echo.projects c).shown hs hl⟩
    cases l with
    | sys l => cases hl; exact hu
    | callback i call | send k bs | finish k => cases hl
  hidden := fun hstep hl => (Echo.projects c).hidden (step_within.mp hstep).2 hl

/-- The behaviour of the system underneath. -/
abbrev worldTrace (ρ : (undisturbedEcho c).Trace) : (undisturbed c).Trace :=
  ρ.project (undisturbedEcho_projects c)

/-- What the system underneath can do, it can do here, unless the callback is in its way. -/
theorem isSome_sys {l : Label n} (hready : e.Ready l) (h : (e.world.step l).isSome = true) :
    (e.step (.sys l)).isSome = true := by
  simp [Echo.step, hready, h]

theorem sys_enabled {l : Label n} (hready : e.Ready l)
    (h : ((undisturbed c).step e.world l).isSome = true) :
    ((undisturbedEcho c).step e (.sys l)).isSome = true := by
  obtain ⟨w, hw⟩ := Option.isSome_iff_exists.mp h
  obtain ⟨hu, hs⟩ := step_within.mp hw
  exact isSome_within hu (isSome_sys hready (Option.isSome_iff_exists.mpr ⟨w, hs⟩))

/-- Outside its callback nothing is in a worker's way. -/
theorem ready_of_not_inCallback {i : Fin n} {call : WorkerCall} {nd : Node}
    (hpc : (e.world.node i).proc.pc ≠ .inCallback)
    (hs : (e.world.node i).step call = some nd) : e.Ready (.worker i call) := by
  cases call with
  | callbackRet =>
      cases Node.step_cases hs with
      | callbackRet hin => exact absurd hin hpc
  | plumb | ipcFdRead ret | callback conn | close fd | write b => trivial

/-- A callback keeps running on its connection unless its worker does something. -/
theorem engaged_kept {ρ : (undisturbedEcho c).Trace} (hsane : ∀ t, EchoSane c (ρ.state t))
    {i : Fin n} {d : Int × Conn} {t : Nat} {l : EchoLabel n}
    (hd : engaged ((ρ.state t).world.node i) = some d) (hl : ρ.label t = some l)
    (hnot : ¬ ∃ call, l = .sys (.worker i call)) :
    engaged ((ρ.state (t + 1)).world.node i) = some d := by
  obtain ⟨hu, hs⟩ := step_within.mp (ρ.act t l hl)
  cases l with
  | sys l =>
      have hw := (Echo.step_sys hs).2.1
      cases callStep (hsane t).world.1 hu.faultFree hw i with
      | enter _ _ _ _ | leave _ _ _ _ => exact absurd ⟨_, rfl⟩ hnot
      | same _ _ hsame _ _ => rw [hsame]; exact hd
  | callback j call =>
      rw [(Echo.projects c).hidden hs rfl]
      exact hd
  | send k bs =>
      rw [(Echo.projects c).hidden hs rfl]
      exact hd
  | finish k =>
      rw [(Echo.projects c).hidden hs rfl]
      exact hd

/-- **If all clients talk, the system underneath is scheduled fairly.** -/
theorem worldTrace_just {ρ : (undisturbedEcho c).Trace} (hsane : ∀ t, EchoSane c (ρ.state t))
    (hfair : ∀ p, ρ.Fair (EchoActs p))
    (htalk : ∀ k, ρ.LeadsTo (fun e => k < e.world.arrivals) (Talked k)) : Just (worldTrace ρ) := by
  intro p t hen
  cases p with
  | none =>
      obtain ⟨u, l, htu, hacts, hl⟩ := hfair none t fun u htu => by
        obtain ⟨_, ⟨call, rfl⟩, hsome⟩ := hen u htu
        exact ⟨.sys (.parent call), ⟨call, rfl⟩, sys_enabled trivial hsome⟩
      cases l with
      | sys l => exact ⟨u, l, htu, hacts, by show (ρ.label u).bind _ = _; rw [hl]; rfl⟩
      | callback i call => cases hacts
      | send k bs | finish k => exact hacts.elim
  | some i =>
      -- it is enough that the worker does something of its own
      have hact : ∀ {v l}, t ≤ v → (∃ call, l = .sys (.worker i call)) → ρ.label v = some l →
          ∃ u l, t ≤ u ∧ Acts (some i) l ∧ (worldTrace ρ).label u = some l := by
        rintro v l htv ⟨call, rfl⟩ hl
        exact ⟨v, .worker i call, htv, ⟨call, rfl⟩, by
          show (ρ.label v).bind _ = _; rw [hl]; rfl⟩
      by_cases hout : ∀ u, t ≤ u → ((ρ.state u).world.node i).proc.pc ≠ .inCallback
      · obtain ⟨u, l, htu, hacts, hl⟩ := hfair (some i) t fun u htu => by
          obtain ⟨_, ⟨call, rfl⟩, hsome⟩ := hen u htu
          obtain ⟨w, hw⟩ := Option.isSome_iff_exists.mp hsome
          obtain ⟨nd, hnd, _⟩ := World.step_worker (step_within.mp hw).2
          exact ⟨.sys (.worker i call), ⟨call, rfl⟩,
            sys_enabled (ready_of_not_inCallback (hout u htu) hnd) hsome⟩
        cases l with
        | sys l =>
            obtain ⟨call, rfl⟩ := hacts
            exact hact htu ⟨call, rfl⟩ hl
        | callback j call =>
            obtain rfl : i = j := Option.some.inj hacts
            obtain ⟨hin, _⟩ := Echo.step_callback (step_within.mp (ρ.act u _ hl)).2
            exact absurd hin (hout u htu)
        | send k bs | finish k => exact hacts.elim
      · obtain ⟨u, hu⟩ := not_forall.mp hout
        obtain ⟨htu, hin⟩ := Classical.not_imp.mp hu
        obtain ⟨k, _, hengaged⟩ := ((hsane u).world.1.phase i).engaged_eq (not_not.mp hin)
        have harrived : k < (ρ.state u).world.arrivals := by
          have hi := (hsane u).world.1
          have hmem := List.mem_append_left (ρ.state u).world.backlog
            (hi.accepted_of_started (hi.mem_started.mpr (.inr ⟨_, hengaged⟩)))
          rw [hi.arrived] at hmem
          exact List.mem_range.mp hmem
        -- its client talks, after that it comes back; in between it does something
        obtain ⟨v, huv, htalked⟩ := htalk k u harrived
        have hchange : ∀ {x y}, u ≤ x → x ≤ y →
            engaged ((ρ.state x).world.node i) = some (((ρ.state u).world.node i).proc.conn, k) →
            engaged ((ρ.state y).world.node i) ≠ some (((ρ.state u).world.node i).proc.conn, k) →
            ∃ u l, t ≤ u ∧ Acts (some i) l ∧ (worldTrace ρ).label u = some l := by
          intro x y hux hxy hx hy
          obtain ⟨z, l, hxz, hA, hl⟩ := ρ.exists_act
            (fun e => engaged (e.world.node i)
              = some (((ρ.state u).world.node i).proc.conn, k)) hxy hx hy
            fun z l hz hl hnot => engaged_kept hsane hz hl hnot
          exact hact (Nat.le_trans (Nat.le_trans htu hux) hxz) hA hl
        by_cases hv : engaged ((ρ.state v).world.node i)
            = some (((ρ.state u).world.node i).proc.conn, k)
        · obtain ⟨v', hvv, hback⟩ := callback_returns hfair i v ⟨hsane v, _, k, hv, htalked⟩
          refine hchange huv hvv hv fun heq => hback (inCallback_of_engaged heq)
        · exact hchange (Nat.le_refl u) huv hengaged hv

/-! ## Both ways -/

/-- Who has been answered has talked. -/
theorem talked_of_answered {k : Conn} (he : EchoInv e) (hreads : NoFailure e)
    (hk : Answered (e.stream k)) : Talked k e := by
  obtain ⟨ret, m, hex⟩ := hk
  cases ret with
  | none =>
      have hnone := hreads k
      rw [hex.reads] at hnone
      exact absurd (List.mem_singleton_self _) hnone
  | some bs =>
      by_cases hbs : bs = []
      · exact .inr (hex.eof (by rw [hbs]))
      · refine .inl fun hnil => hbs ?_
        rw [he.sent k, hex.taken_eq] at hnil
        exact (List.append_eq_nil_iff.mp hnil).1

/--
**Everybody is answered exactly if everybody talks.**

In every fair behaviour without faults, signals and failures, however many clients
connect and whatever they send, if `select` looks at the channel of some worker.
-/
theorem answers_who_talks (c : Numbering n) (hc : ∃ i, c.pipe i < c.server.maxfdp) :
    AnswersWhoTalks c := by
  intro ρ hinit hfair
  have hsane := echoSane_always hinit
  constructor
  · intro hall k t ht
    obtain ⟨u, htu, _, hanswered⟩ := hall k t ht
    exact ⟨u, htu, talked_of_answered (hsane u).echo (hsane u).reads hanswered⟩
  · intro htalk k t ht
    obtain ⟨i, hi⟩ := hc
    have hinit' : (undisturbed c).init ((worldTrace ρ).state 0) := by
      obtain ⟨cmd, mem, heq⟩ := hinit
      exact ⟨cmd, by show (ρ.state 0).world = _; rw [heq]; rfl⟩
    obtain ⟨u, htu, j, hreturned, hclosed⟩ := serves_everyone_of_examined hi (worldTrace ρ) hinit'
      (worldTrace_just hsane hfair htalk) k t ht
    exact ⟨u, htu, ⟨j, hreturned, hclosed⟩, (hsane u).echo.finished j k hreturned⟩

theorem answers_who_talks_twoWorkers : AnswersWhoTalks .twoWorkers :=
  answers_who_talks .twoWorkers ⟨firstWorker, by decide⟩

end TcpServer.Proof
