import TcpServer.Proof.Places
import TcpServer.Proof.Faults

/-!
# What the death of a worker costs

A worker that dies takes the connections with it that it was handed and has not
closed. If nothing but the workers' loops writes to the channels, that is one at
most: the parent hands a connection to a worker it holds as ready, and a worker that
lives is ready when the parent holds it so, however many others have died. A dead
one may be held as ready by mistake, but nothing can be handed to it any more.

So the clients that were accepted and not served are few at every instant
(`deaths_lose_few`): one for each worker that is dead or busy, and one that the
parent has in its hands.
-/

namespace TcpServer.Proof

open TcpServer World

variable {n : Nat} {c : Numbering n} {w w' : World n}

/-! ## One worker -/

/-- The connections handed to a worker are those it has closed and one more at most. -/
def NearlyDone (sent : List Conn) (log : Log) : Prop :=
  ∃ last : Option Conn, sent = log.closed ++ last.toList

/-- A worker is in a phase that fits its entry in the pool, or has died with one connection to
finish at most. Once the parent has been killed it does not matter whom it sent `'s'`. -/
inductive Fits (pc : Pc n) (i : Fin n) (sent : List Conn) (status : Int) (nd : Node) : Prop
  | phase {stop : Bool} (hstop : pc ≠ .killed → stop = stopSent pc i)
      (h : Phase stop sent status nd)
  | dead (hpc : nd.proc.pc = .dead) (h : NearlyDone sent nd.log)

section Fits

variable {pc pc' : Pc n} {i : Fin n} {sent : List Conn} {status : Int} {nd nd' : Node}

theorem Fits.nearlyDone (h : Fits pc i sent status nd) : NearlyDone sent nd.log := by
  cases h with
  | phase hstop h => exact ⟨current nd, h.split⟩
  | dead hpc h => exact h

/-- A worker that has exited, or is ready, has closed all its connections. -/
theorem Fits.done (h : Fits pc i sent status nd) (hpc : nd.proc.pc ≠ .dead)
    (hidle : nd.proc.gone = true ∨ status = 0) : sent = nd.log.closed := by
  cases h with
  | dead hdead h => exact absurd hdead hpc
  | phase hstop h =>
      rcases hidle with hgone | rfl
      · rw [(h.gone_done (.inl hgone)).2.2.2]
      · cases h with
        | idle hp => rfl
        | exited hstop hp => rfl

/-- Control has moved, and `'s'` has been sent to nobody else. -/
theorem Fits.moved (h : Fits pc i sent status nd)
    (hpc : pc' = .killed ∨ pc' = pc ∨ pc ≠ .killed ∧ stopSent pc' i = stopSent pc i) :
    Fits pc' i sent status nd := by
  cases h with
  | dead hdead h => exact .dead hdead h
  | phase hstop h =>
      refine .phase (fun hlive => ?_) h
      rcases hpc with hkilled | rfl | ⟨hbefore, hsame⟩
      · exact absurd hkilled hlive
      · exact hstop hlive
      · rw [hsame]
        exact hstop hbefore

theorem fits_worker {call : WorkerCall} (h : Fits pc i sent status nd)
    (hs : nd.step call = some nd') : Fits pc i sent status nd' := by
  cases h with
  | phase hstop h => exact .phase hstop (phase_worker h hs)
  | dead hdead h =>
      rw [Node.Stuck.step_eq_none (.inl (by simp [WorkerProc.gone, hdead]))] at hs
      cases hs

/-- Before `'s'` is sent to it, a worker that has ended has died. -/
theorem Fits.dead_of_gone (h : Fits pc i sent status nd) (hlive : pc ≠ .killed)
    (hnot : stopSent pc i = false) (hgone : nd.proc.gone = true) : nd.proc.pc = .dead := by
  cases h with
  | dead hdead h => exact hdead
  | phase hstop h =>
      rw [hstop hlive, hnot] at h
      exact absurd (h.not_gone.symm.trans hgone) (by simp)

/-- Whatever the parent does about a dead worker. -/
theorem Fits.of_dead (h : Fits pc i sent status nd) (hdead : nd.proc.pc = .dead)
    (pc' : Pc n) (status' : Int) : Fits pc' i sent status' nd := .dead hdead h.nearlyDone

theorem fits_submit (h : Fits pc i sent 0 nd) (hlive : pc ≠ .killed)
    (hnot : stopSent pc i = false) (hnot' : stopSent pc' i = false)
    (halive : nd.proc.gone = false) (k : Conn) :
    Fits pc' i (sent ++ [k]) 1 (nd.push ⟨cmdConn, some k⟩) := by
  cases h with
  | dead hdead h => simp [WorkerProc.gone, hdead] at halive
  | phase hstop h =>
      rw [hstop hlive, hnot] at h
      exact .phase (fun _ => hnot'.symm) (phase_submit h k)

theorem fits_collect {b : UInt8} {bs : List UInt8} (h : Fits pc i sent status nd)
    (hlive : pc ≠ .killed) (hnot : stopSent pc i = false) (hnot' : stopSent pc' i = false)
    (hout : nd.outbox = b :: bs) : Fits pc' i sent 0 { nd with outbox := bs } := by
  cases h with
  | dead hdead h => exact .dead hdead h
  | phase hstop h =>
      rw [hstop hlive, hnot] at h
      exact .phase (fun _ => hnot'.symm) (phase_collect h hout).2

theorem fits_stop (h : Fits pc i sent status nd) (hlive : pc ≠ .killed)
    (hnot : stopSent pc i = false) (hsent : stopSent pc' i = true) :
    Fits pc' i sent status (nd.push ⟨cmdStop, none⟩) := by
  cases h with
  | dead hdead h => exact .dead hdead h
  | phase hstop h =>
      rw [hstop hlive, hnot] at h
      exact .phase (fun _ => hsent.symm) (phase_stop h)

theorem fits_reap (h : Fits pc i sent status nd) (hgone : nd.proc.gone = true) :
    Fits pc i sent status { nd with reaped := true } := by
  cases h with
  | dead hdead h => exact .dead hdead h
  | phase hstop h => exact .phase hstop (phase_reap h hgone)

end Fits

/-! ## The system -/

/-- What the parent has done about its workers, once it has left the loop. -/
def WindingUp (w : World n) : Pc n → Prop
  | .terminating is => is.Nodup
  | .returned => ∀ i, (w.node i).reaped = true
  | _ => True

/-- The invariant of the system whose workers may die. -/
structure Mortal (w : World n) : Prop where
  sturdy : Sturdy w
  fits : ∀ i, Fits w.parent.pc i (w.sentTo i) (w.worker i).status (w.node i)
  /-- Only who has ended has been waited for. -/
  reaped : ∀ i, (w.node i).reaped = true → (w.node i).proc.gone = true
  windingUp : WindingUp w w.parent.pc

theorem mortal_init (c : Numbering n) (cmd : Fin n → UInt8) : Mortal (World.start c cmd) where
  sturdy := sturdy_init c cmd
  fits := by
    intro i
    show Fits (.dispatched : Pc n) i [] (c.server.wp.worker i).status (Node.start (cmd i))
    rw [c.server_worker i]
    exact .phase (fun _ => rfl) (phase_start (cmd i))
  reaped := fun _ hr => absurd hr (by simp [World.start, Node.start])
  windingUp := trivial

/-- Only control has moved, as far as the workers are concerned. -/
theorem Mortal.moved (h : Mortal w) (hs : Sturdy w') (hnode : w'.node = w.node)
    (hsub : w'.submitted = w.submitted) (hself : w'.parent.self = w.parent.self)
    (hpc : ∀ i, w'.parent.pc = .killed ∨ w'.parent.pc = w.parent.pc
      ∨ w.parent.pc ≠ .killed ∧ stopSent w'.parent.pc i = stopSent w.parent.pc i)
    (hend : WindingUp w' w'.parent.pc) : Mortal w' where
  sturdy := hs
  fits := by
    intro i
    rw [hnode, World.sentTo, hsub, World.worker, hself]
    exact (h.fits i).moved (hpc i)
  reaped := by rw [hnode]; exact h.reaped
  windingUp := hend

theorem reaped_setNode (h : Mortal w) {i : Fin n} {nd : Node}
    (hnd : nd.reaped = true → nd.proc.gone = true) (j : Fin n) :
    ((w.setNode i nd).node j).reaped = true → ((w.setNode i nd).node j).proc.gone = true :=
  forall_setNode (fun _ nd => nd.reaped = true → nd.proc.gone = true) hnd
    (fun j _ => h.reaped j) j

/-- Something has happened to one worker, and control is where it was. -/
theorem Mortal.setNode (h : Mortal w) {i : Fin n} {nd : Node} (hs : Sturdy (w.setNode i nd))
    (hnd : Fits w.parent.pc i (w.sentTo i) (w.worker i).status nd)
    (hreaped : nd.reaped = true → nd.proc.gone = true)
    (hmono : (w.node i).reaped = true → nd.reaped = true) : Mortal (w.setNode i nd) where
  sturdy := hs
  fits := forall_setNode
    (fun j nd => Fits w.parent.pc j (w.sentTo j) (w.worker j).status nd) hnd fun j _ => h.fits j
  reaped := reaped_setNode h hreaped
  windingUp := by
    have hend := h.windingUp
    show WindingUp (w.setNode i nd) w.parent.pc
    cases hpc : w.parent.pc with
    | returned =>
        rw [hpc] at hend
        exact forall_setNode (fun _ nd => nd.reaped = true) (hmono (hend i)) fun j _ => hend j
    | _ => rw [hpc] at hend; exact hend

/-- Nobody has been stopped when the loop is left. -/
theorem stopSent_afterTest {p : Parent n} {nsel : Int} {rset : Finset Nat} (i : Fin n) :
    stopSent (p.afterTest nsel rset) i = false := by
  unfold Parent.afterTest
  split
  · simp [stopSent]
  · split <;> rfl

theorem windingUp_afterTest {p : Parent n} {nsel : Int} {rset : Finset Nat} :
    WindingUp w (p.afterTest nsel rset) := by
  unfold Parent.afterTest
  split
  · exact List.nodup_finRange n
  · split <;> trivial

theorem windingUp_afterClose {nsel : Int} {rset : Finset Nat} :
    WindingUp w (Parent.afterClose nsel rset) := by
  unfold Parent.afterClose
  split <;> trivial

theorem windingUp_afterRead {is : List (Fin n)} {nsel : Int} {rset : Finset Nat} :
    WindingUp w (Parent.afterRead is nsel rset) := by
  unfold Parent.afterRead
  split <;> trivial

/-- **Every call of the parent keeps the invariant.** -/
theorem mortal_parent {u : World n} {p : Parent n} {call : Call n} (h : Mortal w)
    (hs : Parent.Step w.parent call p) (hk : World.Answer w call u) :
    Mortal { u with parent := p } := by
  have hsturdy := sturdy_parent h.sturdy hs hk
  cases hs with
  | enter hpc | scanned hpc | skip hpc hfd | select hpc | ready hpc hsub hne =>
      cases hk
      exact h.moved hsturdy rfl rfl rfl (fun i => .inr (.inr (by rw [hpc]; exact ⟨by simp, rfl⟩)))
        trivial
  | test hpc =>
      cases hk
      refine h.moved hsturdy rfl rfl rfl (fun i => .inr (.inr ?_)) windingUp_afterTest
      rw [hpc]
      exact ⟨by simp, stopSent_afterTest i⟩
  | overrun hpc hnone =>
      cases hk
      exact h.moved hsturdy rfl rfl rfl (fun i => .inr (.inr (by rw [hpc]; exact ⟨by simp, rfl⟩)))
        trivial
  | stopped hpc =>
      cases hk
      refine h.moved hsturdy rfl rfl rfl (fun i => .inr (.inr ?_)) trivial
      rw [hpc]
      exact ⟨by simp, by simp [stopSent]⟩
  | failed hpc => cases hk
  | accept hpc =>
      cases hk
      exact h.moved hsturdy rfl rfl rfl (fun i => .inr (.inr (by rw [hpc]; exact ⟨by simp, rfl⟩)))
        trivial
  | @submit i conn nsel rset ret hpc hi hret =>
      cases hk with
      | notSent hgone => exact absurd rfl hret
      | @sent _ _ _ k halive hlook =>
          have hready := WorkerPool.findReady_some hi
          have hlive : w.parent.pc ≠ .killed := by rw [hpc]; simp
          have hnot : ∀ j, stopSent w.parent.pc j = false := by intro j; rw [hpc]; rfl
          refine ⟨hsturdy, ?_, reaped_setNode h (h.reaped i), trivial⟩
          intro j
          show Fits (.closing conn nsel rset) j (handedTo (w.submitted ++ [(k, i)]) j)
            ((w.parent.self.wp.markBusy i).worker j).status
            (Function.update w.node i ((w.node i).push ⟨cmdConn, some k⟩) j)
          have hj := h.fits j
          by_cases hji : j = i
          · subst hji
            rw [handedTo_snoc_self, WorkerPool.markBusy_status_self, Function.update_self]
            rw [World.worker, hready] at hj
            exact fits_submit hj hlive (hnot j) rfl halive k
          · rw [handedTo_snoc_ne _ _ hji, WorkerPool.markBusy_ne _ hji,
              Function.update_of_ne hji]
            exact hj.moved (.inr (.inr ⟨hlive, by rw [hnot j]; rfl⟩))
  | @submitKilled i conn nsel rset hpc hi =>
      cases hk with
      | notSent hgone =>
          have hlive : w.parent.pc ≠ .killed := by rw [hpc]; simp
          have hnot : stopSent w.parent.pc i = false := by rw [hpc]; rfl
          refine ⟨hsturdy, ?_, h.reaped, trivial⟩
          intro j
          show Fits .killed j (w.sentTo j) ((w.parent.self.wp.markBusy i).worker j).status
            (w.node j)
          by_cases hji : j = i
          · subst hji
            exact (h.fits j).of_dead ((h.fits j).dead_of_gone hlive hnot hgone) _ _
          · rw [WorkerPool.markBusy_ne _ hji]
            exact (h.fits j).moved (.inl rfl)
  | close hpc =>
      cases hk
      refine h.moved hsturdy rfl rfl rfl (fun i => .inr (.inr ?_)) windingUp_afterClose
      rw [hpc]
      exact ⟨by simp, stopSent_afterClose _ _ i⟩
  | readEof hpc hfd =>
      cases hk with
      | hungUp hout hgone hret =>
          exact h.moved hsturdy rfl rfl rfl
            (fun i => .inr (.inr (by rw [hpc]; exact ⟨by simp, rfl⟩))) trivial
  | @free i is nsel rset ret hpc hfd hret =>
      have hlive : w.parent.pc ≠ .killed := by rw [hpc]; simp
      have hnot : ∀ j, stopSent w.parent.pc j = false := by intro j; rw [hpc]; rfl
      cases hk with
      | hungUp hout hgone hret =>
          refine ⟨hsturdy, ?_, h.reaped, windingUp_afterRead⟩
          intro j
          show Fits (Parent.afterRead is nsel rset) j (w.sentTo j)
            ((w.parent.self.wp.markFree i).worker j).status (w.node j)
          by_cases hji : j = i
          · subst hji
            exact (h.fits j).of_dead ((h.fits j).dead_of_gone hlive (hnot j) hgone) _ _
          · rw [WorkerPool.markFree_ne _ hji]
            exact (h.fits j).moved
              (.inr (.inr ⟨hlive, by rw [hnot j]; exact stopSent_afterRead _ _ _ j⟩))
      | @byte _ b bs hout =>
          refine ⟨hsturdy, ?_, reaped_setNode h (h.reaped i), windingUp_afterRead⟩
          intro j
          show Fits (Parent.afterRead is nsel rset) j (w.sentTo j)
            ((w.parent.self.wp.markFree i).worker j).status
            (Function.update w.node i { w.node i with outbox := bs } j)
          by_cases hji : j = i
          · subst hji
            rw [WorkerPool.markFree_status_self, Function.update_self]
            exact fits_collect (h.fits j) hlive (hnot j) (stopSent_afterRead _ _ _ j) hout
          · rw [WorkerPool.markFree_ne _ hji, Function.update_of_ne hji]
            exact (h.fits j).moved
              (.inr (.inr ⟨hlive, by rw [hnot j]; exact stopSent_afterRead _ _ _ j⟩))
  | @stop i is ret hpc hret =>
      cases hk with
      | notWritten hgone => exact absurd rfl hret
      | written halive =>
          have hend := h.windingUp
          rw [hpc] at hend
          obtain ⟨hi, hnd⟩ := List.nodup_cons.mp hend
          have hlive : w.parent.pc ≠ .killed := by rw [hpc]; simp
          refine ⟨hsturdy, ?_, reaped_setNode h (h.reaped i), hnd⟩
          intro j
          show Fits (.terminating is) j (w.sentTo j) (w.worker j).status
            (Function.update w.node i ((w.node i).push ⟨cmdStop, none⟩) j)
          have hj := h.fits j
          by_cases hji : j = i
          · subst hji
            rw [Function.update_self]
            exact fits_stop hj hlive (by rw [hpc]; simp [stopSent]) (by simp [stopSent, hi])
          · rw [Function.update_of_ne hji]
            exact hj.moved (.inr (.inr ⟨hlive, by rw [hpc]; simp [stopSent, hji]⟩))
  | stopKilled hpc =>
      cases hk with
      | notWritten hgone =>
          exact h.moved hsturdy rfl rfl rfl (fun i => .inl rfl) trivial
  | @reap i hpc =>
      cases hk with
      | reaped hgone hnot =>
          exact h.setNode hsturdy (fits_reap (h.fits i) hgone) (fun _ => hgone) fun _ => rfl
  | ret hpc =>
      cases hk with
      | noChildren hall =>
          exact h.moved hsturdy rfl rfl rfl
            (fun i => .inr (.inr (by rw [hpc]; exact ⟨by simp, rfl⟩))) hall
  | sigint =>
      cases hk
      refine h.moved hsturdy rfl rfl rfl ?_ ?_
      · intro i
        show Parent.afterSignal w.parent.pc = .killed ∨ Parent.afterSignal w.parent.pc = w.parent.pc
          ∨ w.parent.pc ≠ .killed
            ∧ stopSent (Parent.afterSignal w.parent.pc) i = stopSent w.parent.pc i
        cases w.parent.pc with
        | inSelect rset => exact .inr (.inr ⟨by simp, rfl⟩)
        | _ => exact .inr (.inl rfl)
      · have hend := h.windingUp
        show WindingUp w (Parent.afterSignal w.parent.pc)
        cases hpc : w.parent.pc with
        | inSelect rset => trivial
        | _ => rw [hpc] at hend; exact hend

/-- Workers may die. Nothing but their loops writes to the channels. -/
def OnlyDeaths (_ : World n) : Label n → Prop
  | .stderr _ _ => False
  | _ => True

instance (w : World n) : (l : Label n) → Decidable (OnlyDeaths w l)
  | .stderr _ _ => inferInstanceAs (Decidable False)
  | .parent _ | .worker _ _ | .arrive | .die _ => inferInstanceAs (Decidable True)

/-- **Every action but a stray byte keeps the invariant.** -/
theorem mortal_step {l : Label n} (h : Mortal w) (hok : OnlyDeaths w l)
    (hs : w.step l = some w') : Mortal w' := by
  have hsturdy := sturdy_step h.sturdy hs
  cases l with
  | parent call =>
      obtain ⟨p, u, hp, hk, rfl⟩ := World.step_parent hs
      exact mortal_parent h hp hk
  | worker i call =>
      obtain ⟨nd, hnd, rfl⟩ := World.step_worker hs
      have hreaped := node_step_reaped hnd
      refine h.setNode hsturdy (fits_worker (h.fits i) hnd) ?_ fun hr => hreaped.trans hr
      intro hr
      rw [Node.Stuck.step_eq_none (.inl (h.reaped i (hreaped.symm.trans hr)))] at hnd
      cases hnd
  | arrive =>
      cases hs
      exact h.moved hsturdy rfl rfl rfl (fun i => .inr (.inl rfl)) h.windingUp
  | die i =>
      simp only [World.step, Option.ite_none_left_eq_some, Option.some.injEq] at hs
      obtain ⟨_, rfl⟩ := hs
      exact h.setNode hsturdy (.dead rfl (h.fits i).nearlyDone) (fun _ => rfl) id
  | stderr i b => cases hok

theorem mortal_reachable (h : (World.lts c).Reachable OnlyDeaths w) : Mortal w := by
  refine h.invariant ?_ mortal_step
  rintro s ⟨cmd, rfl⟩
  exact mortal_init c cmd

/-! ## Who is not served -/

/-- Worker `i` has died, or lives and is held as busy. -/
def Unready (w : World n) (i : Fin n) : Prop :=
  (w.node i).proc.pc = .dead ∨ (w.node i).proc.gone = false ∧ (w.worker i).status ≠ 0

instance (w : World n) (i : Fin n) : Decidable (Unready w i) :=
  inferInstanceAs (Decidable (_ ∨ _))

/-- An open connection that was handed over is with a worker that is not ready. -/
theorem Mortal.unready_of_open (h : Mortal w) {k : Conn} (hk : k ∈ w.submitted.map Prod.fst)
    (hopen : ¬ Gone w k) : ∃ i, Unready w i ∧ w.sentTo i = (w.node i).log.closed ++ [k] := by
  obtain ⟨⟨k', i⟩, hmem, rfl⟩ := List.mem_map.mp hk
  have hsent : k' ∈ w.sentTo i := (abs w).mem_assignedTo.mpr hmem
  have hnot : k' ∉ (w.node i).log.closed := fun hclosed => hopen ⟨i, hclosed⟩
  refine ⟨i, ?_, ?_⟩
  · by_contra hready
    rw [Unready, not_or, not_and_or, Bool.not_eq_false, not_not] at hready
    rw [(h.fits i).done hready.1 hready.2] at hsent
    exact hnot hsent
  · obtain ⟨last, hlast⟩ := (h.fits i).nearlyDone
    rw [hlast] at hsent
    have hmem := (List.mem_append.mp hsent).resolve_left hnot
    rw [hlast, Option.mem_toList.mp hmem]
    rfl

/-- What the deaths of workers have cost. -/
structure FewLost (w : World n) : Prop where
  /-- No worker has had more than one connection to finish, dead or alive. -/
  one : ∀ i, NearlyDone (w.sentTo i) (w.node i).log
  /-- Nor has the parent more than one in its hands. -/
  held : w.accepted.length ≤ w.submitted.length + 1
  /-- Every accepted client is served, but one for each worker that is dead or busy and the one
  in the parent's hands. -/
  unserved : (openConns w).card ≤ (Finset.univ.filter fun i => Unready w i).card
    + (w.accepted.length - w.submitted.length)
  /-- When the server has shut down, all are but one for each worker that has died. -/
  returned : w.parent.pc = .returned →
    (openConns w).card ≤ (Finset.univ.filter fun i => (w.node i).proc.pc = .dead).card

theorem Mortal.unserved (h : Mortal w) :
    (openConns w).card ≤ (Finset.univ.filter fun i => Unready w i).card
      + (w.accepted.length - w.submitted.length) := by
  obtain ⟨last, hlast⟩ := h.sturdy.hands.accepted_eq
  have hlen : last.toList.length = w.accepted.length - w.submitted.length := by
    rw [hlast, List.length_append, List.length_map]
    omega
  -- those handed over, and those in the parent's hands
  have hsplit : openConns w
      ⊆ (openConns w).filter (fun k => k ∈ w.submitted.map Prod.fst) ∪ last.toList.toFinset := by
    intro k hk
    have hacc : k ∈ w.accepted := by
      rw [accepted_eq_range h.sturdy.arrived]
      exact List.mem_range.mpr (Finset.mem_range.mp (Finset.mem_filter.mp hk).1)
    rw [hlast] at hacc
    rcases List.mem_append.mp hacc with hsub | hin
    · exact Finset.mem_union_left _ (Finset.mem_filter.mpr ⟨hk, hsub⟩)
    · exact Finset.mem_union_right _ (List.mem_toFinset.mpr hin)
  have hhanded : ((openConns w).filter fun k => k ∈ w.submitted.map Prod.fst).card
      ≤ (Finset.univ.filter fun i => Unready w i).card := by
    refine Finset.card_le_card_of_forall_subsingleton
      (fun k i => w.sentTo i = (w.node i).log.closed ++ [k]) ?_ ?_
    · intro k hk
      obtain ⟨hopen, hsub⟩ := Finset.mem_filter.mp hk
      obtain ⟨i, hready, hlast⟩ := h.unready_of_open hsub (Finset.mem_filter.mp hopen).2
      exact ⟨i, Finset.mem_filter.mpr ⟨Finset.mem_univ i, hready⟩, hlast⟩
    · rintro i - k ⟨-, hk⟩ k' ⟨-, hk'⟩
      have heq := List.append_cancel_left (hk.symm.trans hk')
      exact (List.cons.inj heq).1
  calc (openConns w).card
      ≤ ((openConns w).filter (fun k => k ∈ w.submitted.map Prod.fst)
          ∪ last.toList.toFinset).card := Finset.card_le_card hsplit
    _ ≤ ((openConns w).filter fun k => k ∈ w.submitted.map Prod.fst).card
          + last.toList.toFinset.card := Finset.card_union_le _ _
    _ ≤ (Finset.univ.filter fun i => Unready w i).card
          + (w.accepted.length - w.submitted.length) := by
        rw [← hlen]
        exact Nat.add_le_add hhanded (List.toFinset_card_le last.toList)

theorem Mortal.returned (h : Mortal w) (hpc : w.parent.pc = .returned) :
    (openConns w).card ≤ (Finset.univ.filter fun i => (w.node i).proc.pc = .dead).card := by
  have hend := h.windingUp
  have hhands := h.sturdy.hands
  rw [hpc] at hend hhands
  have hlen : w.accepted.length = w.submitted.length := by rw [hhands.2, List.length_map]
  have hle := h.unserved
  rw [hlen, Nat.sub_self, Nat.add_zero] at hle
  refine hle.trans (Finset.card_le_card ?_)
  intro i hi
  obtain ⟨hin, hdead | ⟨halive, _⟩⟩ := Finset.mem_filter.mp hi
  · exact Finset.mem_filter.mpr ⟨hin, hdead⟩
  · exact absurd (halive.symm.trans (h.reaped i (hend i))) (by simp)

/--
**The death of a worker costs one client at most.**

In every run in which workers may die at any moment, whatever the parent makes of
it, and nothing but the workers' loops writes to the channels: all the clients that
have been accepted have been served and their connections closed, but one for each
worker that is dead or busy and one that the parent has in its hands.
-/
theorem deaths_lose_few (c : Numbering n) {w : World n}
    (h : (World.lts c).Reachable OnlyDeaths w) : FewLost w := by
  have hm := mortal_reachable h
  exact ⟨fun i => (hm.fits i).nearlyDone, hm.sturdy.hands.accepted_length_le, hm.unserved,
    hm.returned⟩

/-- The only worker dies in its callback, after it was sent `'s'`. -/
def diesStopping : List (Label 1) :=
  callbackInterrupted ++ [.die solo, .parent .tau, .parent (.wait (some solo)),
    .parent (.wait none)]

/-- Its client is lost. -/
theorem deaths_lose_few_diesStopping :
    ∃ w, (World.lts .oneWorker).Reachable OnlyDeaths w ∧
      (w.parent.pc = .returned ∧ openConns w = {0}) ∧ FewLost w := by
  obtain ⟨w, hrun, hlost⟩ : ∃ w, (World.lts .oneWorker).Run OnlyDeaths
      (World.start .oneWorker fun _ => 0) diesStopping w ∧
        w.parent.pc = .returned ∧ openConns w = {0} :=
    Lts.exists_run_of_exec (by decide +kernel)
  have hr : (World.lts .oneWorker).Reachable OnlyDeaths w := ⟨_, _, ⟨_, rfl⟩, hrun⟩
  exact ⟨w, hr, hlost, deaths_lose_few .oneWorker hr⟩

end TcpServer.Proof
