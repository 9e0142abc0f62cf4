import TcpServer.Proof.Callback

/-!
# Every callback has its connection to itself

A call of the callback changes one connection, the one its worker's descriptor
names. If no connection is ever given to two callbacks (`Exclusive`), the calls of
one client's callback and those of another's do not meet, and what each connection
has been through can be followed on its own: `Apart` says where it is, and every
action keeps it.

Nothing here asks how the system came to be `Exclusive`. A callback may also be cut
short, with its worker; `Cut` lists what an action can do to it.
-/

namespace TcpServer.Proof

open TcpServer World

variable {n : Nat} {w w' : World n}

/-! ## Whose callback runs on what -/

/-- The descriptor a worker's callback is running on, and its connection. -/
def engaged (nd : Node) : Option (Int × Conn) :=
  if nd.proc.pc = .inCallback then (nd.fds.lookup nd.proc.conn).map fun k => (nd.proc.conn, k)
  else none

theorem inCallback_of_engaged {nd : Node} {e : Int × Conn} (h : engaged nd = some e) :
    nd.proc.pc = .inCallback := by
  by_contra hpc
  rw [engaged, if_neg hpc] at h
  cases h

theorem engaged_of_fds {nd : Node} {k : Conn} (hpc : nd.proc.pc = .inCallback)
    (hfds : nd.fds = [(nd.proc.conn, k)]) : engaged nd = some (nd.proc.conn, k) := by
  simp [engaged, hpc, hfds]

/-- What an action does to the callback of worker `i`. -/
inductive CallStep (i : Fin n) : Label n → Node → Node → Prop
  | enter {nd nd' : Node} {conn : Int} {k : Conn} (hnone : engaged nd = none)
      (hsome : engaged nd' = some (conn, k)) (hstarted : nd'.log.started = nd.log.started ++ [k])
      (hreturned : nd'.log.returned = nd.log.returned) :
      CallStep i (.worker i (.callback conn)) nd nd'
  | leave {nd nd' : Node} {conn : Int} {k : Conn} (hsome : engaged nd = some (conn, k))
      (hnone : engaged nd' = none) (hstarted : nd'.log.started = nd.log.started)
      (hreturned : nd'.log.returned = nd.log.returned ++ [k]) :
      CallStep i (.worker i .callbackRet) nd nd'
  | same {l : Label n} {nd nd' : Node} (henter : ∀ conn, l ≠ .worker i (.callback conn))
      (hleave : l ≠ .worker i .callbackRet) (hengaged : engaged nd' = engaged nd)
      (hstarted : nd'.log.started = nd.log.started)
      (hreturned : nd'.log.returned = nd.log.returned) : CallStep i l nd nd'

/-- The same, if a worker may also die during its callback. -/
inductive Cut (i : Fin n) : Label n → Node → Node → Prop
  | call {l : Label n} {nd nd' : Node} (h : CallStep i l nd nd') : Cut i l nd nd'
  | cut {nd nd' : Node} (hnone : engaged nd' = none)
      (hstarted : nd'.log.started = nd.log.started)
      (hreturned : nd'.log.returned = nd.log.returned) : Cut i (.die i) nd nd'

theorem CallStep.started_subset {i : Fin n} {l : Label n} {nd nd' : Node}
    (h : CallStep i l nd nd') : nd.log.started ⊆ nd'.log.started := by
  cases h with
  | enter _ _ hstarted _ => rw [hstarted]; exact List.subset_append_left _ _
  | leave _ _ hstarted _ | same _ _ _ hstarted _ => rw [hstarted]; exact List.Subset.refl _

theorem Cut.started_subset {i : Fin n} {l : Label n} {nd nd' : Node} (h : Cut i l nd nd') :
    nd.log.started ⊆ nd'.log.started := by
  cases h with
  | call h => exact h.started_subset
  | cut _ hstarted _ => rw [hstarted]; exact List.Subset.refl _

/-- A worker whose process, descriptors and log are what they were. -/
theorem callStep_setNode {l : Label n} {j : Fin n} {nd : Node} (i : Fin n)
    (henter : ∀ conn, l ≠ .worker i (.callback conn)) (hleave : l ≠ .worker i .callbackRet)
    (hproc : nd.proc = (w.node j).proc) (hfds : nd.fds = (w.node j).fds)
    (hlog : nd.log = (w.node j).log) : CallStep i l (w.node i) ((w.setNode j nd).node i) := by
  by_cases hij : i = j
  · subst hij
    rw [setNode_node_self]
    exact .same henter hleave (by rw [engaged, engaged, hproc, hfds]) (by rw [hlog]) (by rw [hlog])
  · rw [setNode_node_ne _ _ hij]
    exact .same henter hleave rfl rfl rfl

/-- A worker that enters or leaves its callback has one connection. -/
theorem callStep_worker {nd nd' : Node} {call : WorkerCall} (i : Fin n)
    (hfds : nd.proc.pc = .serving ∨ nd.proc.pc = .inCallback → ∃ k, nd.fds = [(nd.proc.conn, k)])
    (hs : nd.step call = some nd') : CallStep i (.worker i call) nd nd' := by
  have hstep := Node.step_cases hs
  cases hstep with
  | callback hpc =>
      obtain ⟨k, hk⟩ := hfds (.inl hpc)
      refine .enter (k := k) ?_ ?_ ?_ rfl
      · simp [engaged, hpc]
      · simp [engaged, hk]
      · simp [hk]
  | callbackRet hpc =>
      obtain ⟨k, hk⟩ := hfds (.inr hpc)
      exact .leave (engaged_of_fds hpc hk) (by simp [engaged]) rfl (by simp [hk])
  | recv hpc hin =>
      refine .same (by simp) (by simp) ?_ rfl rfl
      unfold engaged WorkerProc.dispatchCmd
      repeat' split
      all_goals simp_all
  | recvFile hpc hin hfd =>
      refine .same (by simp) (by simp) ?_ rfl rfl
      unfold engaged WorkerProc.dispatchCmd
      repeat' split
      all_goals simp_all
  | plumb hpc | close hpc | report hpc =>
      exact .same (by simp) (by simp) (by simp [engaged, hpc]) rfl rfl

/-- An action of a worker is nothing to the others. -/
theorem callStep_other {i j : Fin n} {call : WorkerCall} {nd : Node} (hij : i ≠ j) :
    CallStep i (.worker j call) (w.node i) ((w.setNode j nd).node i) := by
  rw [setNode_node_ne _ _ hij]
  refine .same ?_ ?_ rfl rfl rfl
  · rintro conn heq
    cases heq
    exact hij rfl
  · rintro heq
    cases heq
    exact hij rfl

/-- Nor do the parent's calls enter or leave a callback. -/
theorem callStep_parent {call : Call n} (hs : w.step (.parent call) = some w') (i : Fin n) :
    CallStep i (.parent call) (w.node i) (w'.node i) := by
  obtain ⟨p, u, _, hk, rfl⟩ := World.step_parent hs
  cases hk with
  | sent halive hlook => exact callStep_setNode i (by simp) (by simp) rfl rfl rfl
  | byte hout => exact callStep_setNode i (by simp) (by simp) rfl rfl rfl
  | written halive => exact callStep_setNode i (by simp) (by simp) rfl rfl rfl
  | reaped hgone hnot => exact callStep_setNode i (by simp) (by simp) rfl rfl rfl
  | _ => exact .same (by simp) (by simp) rfl rfl rfl

/-! ## A connection of its own -/

/-- No connection is ever given to two callbacks. -/
structure Exclusive (w : World n) : Prop where
  /-- A worker in or before its callback has one connection. -/
  current : ∀ i, (w.node i).proc.pc = .serving ∨ (w.node i).proc.pc = .inCallback →
    ∃ k, (w.node i).fds = [((w.node i).proc.conn, k)]
  /-- The callbacks that have returned, and then the one that runs, have been started. -/
  started : ∀ i, (w.node i).log.returned ++ ((engaged (w.node i)).map Prod.snd).toList
    <+: (w.node i).log.started
  nodup : ∀ i, (w.node i).log.started.Nodup
  inj : ∀ {i j k}, k ∈ (w.node i).log.started → k ∈ (w.node j).log.started → i = j

section Exclusive

variable {i : Fin n} {conn : Int} {k : Conn}

/-- It is enough that no connection is handed out twice, and that a worker starts its callback for
those it was handed, in order. -/
theorem exclusive_of_submitted
    (hcurrent : ∀ i, (w.node i).proc.pc = .serving ∨ (w.node i).proc.pc = .inCallback →
      ∃ k, (w.node i).fds = [((w.node i).proc.conn, k)])
    (hstarted : ∀ i, (w.node i).log.returned ++ ((engaged (w.node i)).map Prod.snd).toList
      <+: (w.node i).log.started)
    (hsent : ∀ i, (w.node i).log.started <+: w.sentTo i)
    (hnd : (w.submitted.map Prod.fst).Nodup) : Exclusive w where
  current := hcurrent
  started := hstarted
  nodup := fun i => (hnd.sublist (List.Sublist.map Prod.fst List.filter_sublist)).sublist
    (hsent i).sublist
  inj := by
    intro i j k hi hj
    have hmem : ∀ {i}, k ∈ (w.node i).log.started → (k, i) ∈ w.submitted := by
      intro i hk
      obtain ⟨e, he, rfl⟩ := List.mem_map.mp ((hsent i).subset hk)
      obtain ⟨he, heq⟩ := List.mem_filter.mp he
      rw [← of_decide_eq_true heq]
      exact he
    exact congrArg Prod.snd (List.inj_on_of_nodup_map hnd (hmem hi) (hmem hj) rfl)

theorem Exclusive.of_returned (h : Exclusive w) (hk : k ∈ (w.node i).log.returned) :
    k ∈ (w.node i).log.started :=
  (h.started i).subset (List.mem_append_left _ hk)

theorem Exclusive.of_engaged (h : Exclusive w) (hi : engaged (w.node i) = some (conn, k)) :
    k ∈ (w.node i).log.started :=
  (h.started i).subset (List.mem_append_right _ (by simp [hi]))

/-- **A running callback has its connection to itself**: no other runs on it, and none is over. -/
theorem Exclusive.alone (h : Exclusive w) (hi : engaged (w.node i) = some (conn, k)) :
    (∀ j, k ∉ (w.node j).log.returned) ∧
      ∀ j conn', engaged (w.node j) = some (conn', k) → j = i := by
  have hstarted := h.of_engaged hi
  refine ⟨?_, ?_⟩
  · intro j hj
    obtain rfl := h.inj (h.of_returned hj) hstarted
    have hnd := (h.nodup j).sublist (h.started j).sublist
    rw [hi] at hnd
    exact (List.nodup_append.mp hnd).2.2 k hj k (by simp) rfl
  · intro j conn' hj
    exact h.inj (h.of_engaged hj) hstarted

/-- **Callbacks are entered and left by their own workers' actions only**, and cut short by their
deaths. -/
theorem Exclusive.cut (h : Exclusive w) {l : Label n} (hs : w.step l = some w') (i : Fin n) :
    Cut i l (w.node i) (w'.node i) := by
  cases l with
  | worker j call =>
      obtain ⟨nd, hnd, rfl⟩ := World.step_worker hs
      by_cases hij : i = j
      · subst hij
        rw [setNode_node_self]
        exact .call (callStep_worker i (h.current i) hnd)
      · exact .call (callStep_other hij)
  | parent call => exact .call (callStep_parent hs i)
  | arrive => cases hs; exact .call (.same (by simp) (by simp) rfl rfl rfl)
  | die j =>
      simp only [World.step, Option.ite_none_left_eq_some, Option.some.injEq] at hs
      obtain ⟨_, rfl⟩ := hs
      by_cases hij : i = j
      · subst hij
        rw [setNode_node_self]
        exact .cut (by simp [engaged, Node.die]) rfl rfl
      · rw [setNode_node_ne _ _ hij]
        exact .call (.same (by simp) (by simp) rfl rfl rfl)
  | stderr j b =>
      simp only [World.step, Option.ite_none_left_eq_some, Option.some.injEq] at hs
      obtain ⟨_, rfl⟩ := hs
      exact .call (callStep_setNode i (by simp) (by simp) rfl rfl rfl)

end Exclusive

/-! ## What every connection has been through -/

/-- Every connection is as far as the callback for it has got, if there has been one. -/
structure Apart (e : Echo n) : Prop where
  /-- What a client sent has been read or waits to be. -/
  sent : ∀ k, (e.stream k).sent = (e.stream k).taken ++ (e.stream k).pending
  /-- Only a callback touches a connection. -/
  untouched : ∀ k, (∀ i, k ∉ (e.world.node i).log.started) → Untouched (e.stream k)
  /-- A callback that has returned has been through. -/
  finished : ∀ i, ∀ k ∈ (e.world.node i).log.returned, Answered (e.stream k)
  /-- One that runs has got to where it is. -/
  running : ∀ i conn k, engaged (e.world.node i) = some (conn, k) →
    (e.callback i).conn = conn ∧ Stage (e.callback i) (e.stream k)

section Steps

variable {e e' : Echo n}

theorem entered_same {l : Label n} {i : Fin n} (h : ∀ conn, l ≠ .worker i (.callback conn)) :
    e.entered l i = e.callback i := by
  cases l with
  | worker j call =>
      cases call with
      | callback conn =>
          have hne : i ≠ j := by
            rintro rfl
            exact h conn rfl
          exact Function.update_of_ne hne _ _
      | _ => rfl
  | _ => rfl

/-- **An action of the system changes no connection**, and a callback it enters is the first. -/
theorem apart_sys {l : Label n} (h : Exclusive e.world) (h' : Exclusive e'.world) (he : Apart e)
    (hs : e.step (.sys l) = some e') : Apart e' := by
  obtain ⟨hready, hw, hstream, hcallback, _⟩ := Echo.step_sys hs
  have hcut := h.cut hw
  refine ⟨?_, ?_, ?_, ?_⟩
  · intro k
    rw [hstream]
    exact he.sent k
  · intro k hk
    rw [hstream]
    exact he.untouched k fun i hi => hk i ((hcut i).started_subset hi)
  · intro i k hk
    rw [hstream]
    cases hcut i with
    | cut _ _ hreturned =>
        rw [hreturned] at hk
        exact he.finished i k hk
    | call hcall =>
        cases hcall with
        | enter _ _ _ hreturned | same _ _ _ _ hreturned =>
            rw [hreturned] at hk
            exact he.finished i k hk
        | leave hsome _ _ hreturned =>
            rw [hreturned] at hk
            rcases List.mem_append.mp hk with hk | hk
            · exact he.finished i k hk
            · cases List.mem_singleton.mp hk
              have hstage := (he.running i _ k hsome).2
              have hdone : (e.callback i).pc = .done := hready
              rw [Stage, hdone] at hstage
              exact hstage
  · intro i conn k hk
    rw [hstream, hcallback]
    cases hcut i with
    | cut hnone _ _ => rw [hnone] at hk; cases hk
    | call hcall =>
        cases hcall with
        | enter hnone hsome hstarted _ =>
            rw [hsome] at hk
            cases hk
            have hcb : e.entered (.worker i (.callback conn)) i = (e.callback i).enter conn :=
              Function.update_self i _ _
            rw [hcb]
            -- nobody has touched it, for this is the first callback started for it
            refine ⟨rfl, he.untouched k fun j hj => ?_⟩
            have hmine : k ∈ (e'.world.node i).log.started := by rw [hstarted]; simp
            obtain rfl := h'.inj ((hcut j).started_subset hj) hmine
            have hnd := h'.nodup j
            rw [hstarted] at hnd
            exact (List.nodup_append.mp hnd).2.2 k hj k (by simp) rfl
        | leave _ hnone _ _ => rw [hnone] at hk; cases hk
        | same henter _ hengaged _ _ =>
            rw [hengaged] at hk
            rw [entered_same henter]
            exact he.running i conn k hk

/-- The connection that a callback's call is about is the one it runs on. -/
theorem Apart.engaged_of_lookup (h : Exclusive e.world) (he : Apart e) {i : Fin n} {k : Conn}
    (hpc : (e.world.node i).proc.pc = .inCallback)
    (hk : (e.world.node i).fds.lookup (e.callback i).conn = some k) :
    engaged (e.world.node i) = some ((e.callback i).conn, k) := by
  obtain ⟨k', hfds⟩ := h.current i (.inr hpc)
  have hengaged := engaged_of_fds hpc hfds
  have hconn := (he.running i _ k' hengaged).1
  rw [hfds, hconn, List.lookup_cons_self] at hk
  cases hk
  rw [hengaged, hconn]

/-- **A call of a callback changes its own connection only.** -/
theorem apart_callback {i : Fin n} {call : CallbackCall} (h : Exclusive e.world) (he : Apart e)
    (hs : e.step (.callback i call) = some e') : Apart e' := by
  obtain ⟨hpc, f, k, s, hk, hstep, rfl⟩ := Echo.step_callback hs
  have hengaged := he.engaged_of_lookup h hpc hk
  obtain ⟨_, hstage⟩ := he.running i _ k hengaged
  obtain ⟨hover, halone⟩ := h.alone hengaged
  have hstarted := h.of_engaged hengaged
  -- the other connections are as they were
  have hsame : ∀ k', k' ≠ k → (e.setStream k s).stream k' = e.stream k' := fun k' hne =>
    Function.update_of_ne hne _ _
  have hself : (e.setStream k s).stream k = s := Function.update_self k _ _
  refine ⟨?_, ?_, ?_, ?_⟩
  · intro k'
    show ((e.setStream k s).stream k').sent = _ ++ ((e.setStream k s).stream k').pending
    by_cases hkk : k' = k
    · subst hkk
      obtain ⟨hsent, htaken⟩ := taken_pending_step hstep
      rw [hself, hsent, he.sent k']
      exact htaken.symm
    · rw [hsame k' hkk]
      exact he.sent k'
  · intro k' hk'
    show Untouched ((e.setStream k s).stream k')
    rw [hsame k' fun heq => hk' i (heq ▸ hstarted)]
    exact he.untouched k' hk'
  · intro j k' hk'
    show Answered ((e.setStream k s).stream k')
    rw [hsame k' fun heq => hover j (heq ▸ hk')]
    exact he.finished j k' hk'
  · intro j conn' k' hk'
    show (Function.update e.callback i f j).conn = conn'
      ∧ Stage (Function.update e.callback i f j) ((e.setStream k s).stream k')
    by_cases hji : j = i
    · subst hji
      obtain ⟨rfl, rfl⟩ : (e.callback j).conn = conn' ∧ k = k' := by
        have heq := hengaged.symm.trans hk'
        simpa using heq
      rw [Function.update_self, hself]
      exact ⟨hstep.conn, stage_step hstage hstep⟩
    · rw [Function.update_of_ne hji, hsame k' fun heq => hji (halone j conn' (heq ▸ hk'))]
      exact he.running j conn' k' hk'

/-- The connections of the other clients are what they were, and that of client `k` has gone on
as its client made it. -/
theorem later_setStream {k : Conn} {s : Stream} (hlater : Later (e.stream k) s) (k' : Conn) :
    Later (e.stream k') ((e.setStream k s).stream k') := by
  by_cases hkk : k' = k
  · subst hkk
    show Later (e.stream k') (Function.update e.stream k' s k')
    rw [Function.update_self]
    exact hlater
  · show Later (e.stream k') (Function.update e.stream k s k')
    rw [Function.update_of_ne hkk]
    exact .refl _

/-- What a client does changes nothing that the server has done. -/
theorem apart_client {k : Conn} {s : Stream} (he : Apart e) (hlater : Later (e.stream k) s)
    (hsent : s.sent = s.taken ++ s.pending) : Apart (e.setStream k s) := by
  refine ⟨?_, ?_, ?_, ?_⟩
  · intro k'
    by_cases hkk : k' = k
    · subst hkk
      show (Function.update e.stream k' s k').sent = (Function.update e.stream k' s k').taken
        ++ (Function.update e.stream k' s k').pending
      rw [Function.update_self]
      exact hsent
    · show (Function.update e.stream k s k').sent = (Function.update e.stream k s k').taken
        ++ (Function.update e.stream k s k').pending
      rw [Function.update_of_ne hkk]
      exact he.sent k'
  · intro k' hk'
    exact (he.untouched k' hk').later (later_setStream hlater k')
  · intro i k' hk'
    exact (he.finished i k' hk').later (later_setStream hlater k')
  · intro i conn k' hk'
    obtain ⟨hconn, hstage⟩ := he.running i conn k' hk'
    exact ⟨hconn, hstage.later (later_setStream hlater k')⟩

/-- What the two kinds of a client's actions come to. -/
theorem apart_send {k : Conn} {bs : List UInt8} (he : Apart e)
    (hs : e.step (.send k bs) = some e') : Apart e' := by
  obtain ⟨_, rfl⟩ := Echo.step_send hs
  refine apart_client he ⟨rfl, rfl, rfl, id⟩ ?_
  show (e.stream k).sent ++ bs = (e.stream k).taken ++ ((e.stream k).pending ++ bs)
  rw [he.sent k, List.append_assoc]

theorem apart_finish {k : Conn} (he : Apart e) (hs : e.step (.finish k) = some e') :
    Apart e' := by
  obtain ⟨_, rfl⟩ := Echo.step_finish hs
  exact apart_client he ⟨rfl, rfl, rfl, fun _ => rfl⟩ (he.sent k)

end Steps

/-! ## What a client gets -/

/-- What has come back to a client is its own. -/
structure OwnBytes (s : Stream) : Prop where
  /-- It is the front of what was read from it. -/
  echoed : s.echoed <+: s.taken
  /-- That is the front of what it sent. -/
  taken : s.taken <+: s.sent
  /-- And no more than one buffer of it. -/
  fits : s.taken.length ≤ rxSize
  reads : s.reads.length ≤ 1
  writes : s.writes.length ≤ 1

theorem Untouched.ownBytes {s : Stream} (h : Untouched s) : OwnBytes s := by
  have htaken : s.taken = [] := by simp [Stream.taken, h.reads]
  exact ⟨by rw [h.echoed]; exact List.nil_prefix, by rw [htaken]; exact List.nil_prefix,
    by rw [htaken]; exact Nat.zero_le _, by simp [h.reads], by simp [h.writes]⟩

theorem HasRead.ownBytes {f : Callback} {s : Stream} {ret : Option (List UInt8)}
    (h : HasRead f s ret) (hsent : s.sent = s.taken ++ s.pending) : OwnBytes s := by
  refine ⟨by rw [h.echoed]; exact List.nil_prefix, ⟨_, hsent.symm⟩, ?_, by simp [h.reads],
    by simp [h.writes]⟩
  rw [h.taken_eq]
  exact h.loaded.fits

theorem Answered.ownBytes {s : Stream} (h : Answered s) (hsent : s.sent = s.taken ++ s.pending) :
    OwnBytes s := by
  obtain ⟨ret, m, hex⟩ := h
  refine ⟨?_, ⟨_, hsent.symm⟩, ?_, by simp [hex.reads], by simp [hex.writes]⟩
  · rw [hex.taken_eq, hex.echoed]
    exact List.take_prefix _ _
  · rw [hex.taken_eq]
    exact hex.fits

theorem Stage.ownBytes {f : Callback} {s : Stream} (h : Stage f s)
    (hsent : s.sent = s.taken ++ s.pending) : OwnBytes s := by
  unfold Stage at h
  cases hpc : f.pc with
  | reading => rw [hpc] at h; exact h.ownBytes
  | dumping | writing =>
      rw [hpc] at h
      obtain ⟨ret, hret⟩ := h
      exact hret.ownBytes hsent
  | done => rw [hpc] at h; exact h.ownBytes hsent

end TcpServer.Proof
