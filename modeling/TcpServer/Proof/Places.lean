import TcpServer.Lib.Service
import TcpServer.Proof.Served
import TcpServer.Proof.Echo
import Mathlib.Combinatorics.Enumerative.DoubleCounting

/-!
# The echo service is a service with as many places as workers

What the whole system is for, with the parent, the workers and all that is in
flight between them left out: `Service`, with a place for each worker. `accept` is
the admission, the callback's `read` and `write` hear and answer, the worker's
`close` is the departure, and everything else does not show (`happens`).

A place is taken from `accept` on, though the parent may not have found the worker
yet: it accepts nobody unless a worker is ready, and a ready worker has closed all
its connections (`Inv.card_open_lt`).
-/

namespace TcpServer.Proof

open TcpServer World

variable {n : Nat} {c : Numbering n} {w : World n}

/-! ## What is left in the system -/

/-- Some worker has closed the connection. -/
def Gone (w : World n) (k : Conn) : Prop := ∃ i, k ∈ (w.node i).log.closed

instance (w : World n) (k : Conn) : Decidable (Gone w k) := inferInstanceAs (Decidable (∃ _, _))

/-- A worker's connections are those it has closed and the one it has to finish. -/
theorem Phase.split {stop : Bool} {sent : List Conn} {status : Int} {nd : Node}
    (h : Phase stop sent status nd) : sent = nd.log.closed ++ (current nd).toList := by
  cases h with
  | exited _ hp | exitedReported _ hp => simp [current]
  | _ => cases stop <;> simp [current, stopQueue]

/-- The accepted connections that are still open. -/
def openConns (w : World n) : Finset Conn :=
  (Finset.range w.accepted.length).filter fun k => ¬ Gone w k

/-- **With a worker available and nothing in the parent's hands, fewer connections are open than
there are workers.** -/
theorem Inv.card_open_lt (h : Inv c w) (hstop : ∀ i, stopSent w.parent.pc i = false)
    (hsettled : Settled w) (hpos : 0 < w.parent.self.wp.availWorkersN) :
    (openConns w).card < n := by
  -- each open connection is the current one of a busy worker
  have hbusy : ∀ k ∈ openConns w, ∃ i, current (w.node i) = some k ∧ (w.worker i).status ≠ 0 := by
    intro k hk
    obtain ⟨hlt, hopen⟩ := Finset.mem_filter.mp hk
    have hacc : k ∈ w.accepted := h.mem_accepted.mpr (Finset.mem_range.mp hlt)
    rw [← hsettled.2.1] at hacc
    obtain ⟨⟨k', i⟩, hmem, rfl⟩ := List.mem_map.mp hacc
    have hsent : k' ∈ w.sentTo i := (abs w).mem_assignedTo.mpr hmem
    have hphase := h.phase i
    rw [hphase.split] at hsent
    rcases List.mem_append.mp hsent with hclosed | hcur
    · exact absurd ⟨i, hclosed⟩ hopen
    · have hcur : current (w.node i) = some k' := Option.mem_toList.mp hcur
      refine ⟨i, hcur, ?_⟩
      intro hready
      rw [hstop i, hready] at hphase
      rw [hphase.current_of_ready] at hcur
      cases hcur
  have hcard : (openConns w).card
      ≤ (Finset.univ.filter fun i => (w.worker i).status ≠ 0).card := by
    refine Finset.card_le_card_of_forall_subsingleton (fun k i => current (w.node i) = some k) ?_ ?_
    · intro k hk
      obtain ⟨i, hcur, hne⟩ := hbusy k hk
      exact ⟨i, Finset.mem_filter.mpr ⟨Finset.mem_univ i, hne⟩, hcur⟩
    · rintro i - k ⟨-, hk⟩ k' ⟨-, hk'⟩
      exact Option.some.inj (hk.symm.trans hk')
  have hready : 0 < w.parent.self.wp.readyCount := by
    have havail := h.avail
    omega
  have hsum : w.parent.self.wp.readyCount
      + (Finset.univ.filter fun i => (w.worker i).status ≠ 0).card = n := by
    have hall := Finset.card_filter_add_card_filter_not (s := (Finset.univ : Finset (Fin n)))
      fun i => (w.worker i).status = 0
    rw [Finset.card_univ, Fintype.card_fin] at hall
    exact hall
  omega

/-! ## The service -/

/-- How far the client has got. -/
def visitOf (e : Echo n) (k : Conn) : Visit UInt8 :=
  match (e.stream k).reads, (e.stream k).writes with
  | [], _ => if k ∈ e.world.accepted then .admitted else .waiting
  | _ :: _, [] => .heard (e.stream k).taken
  | _ :: _, m :: _ =>
      if Gone e.world k then .gone (e.stream k).taken (m.getD 0)
      else .answered (e.stream k).taken (m.getD 0)

/-- The echo service without its machinery. -/
def asService (e : Echo n) : Service UInt8 where
  arrived := e.world.arrivals
  admitted := e.world.accepted.length
  said := fun k => (e.stream k).sent
  visit := visitOf e

/-- The client that worker `i`'s callback is about. -/
def client (e : Echo n) (i : Fin n) : Option Conn :=
  (e.world.node i).fds.lookup (e.callback i).conn

/-- What an action is to the clients. -/
def happens (e : Echo n) : EchoLabel n → List (Service.Event UInt8)
  | .sys .arrive => [.arrive]
  | .sys (.parent (.accept _)) => [.enter e.world.accepted.length]
  | .sys (.worker i (.close fd)) => ((e.world.node i).fds.lookup fd).toList.map .leave
  | .callback i (.read ret) => (client e i).toList.map fun k => .hear k (ret.getD [])
  | .callback i (.write ret) => (client e i).toList.map fun k => .answer k (ret.getD 0)
  | .send k bs => [.say k bs]
  | _ => []

section Steps

variable {e e' : Echo n} {k : Conn}

theorem run_single {s s' : Service UInt8} {ev : Service.Event UInt8}
    (h : Service.step n s ev = some s') : (Service.lts UInt8 n).Run Lts.Any s [ev] s' :=
  .cons trivial h (.nil _)

theorem visitOf_admitted (hreads : (e.stream k).reads = []) (hacc : k ∈ e.world.accepted) :
    visitOf e k = .admitted := by
  rw [visitOf, hreads]
  exact if_pos hacc

theorem visitOf_heard {ret : Option (List UInt8)} (hreads : (e.stream k).reads = [ret])
    (hwrites : (e.stream k).writes = []) : visitOf e k = .heard (ret.getD []) := by
  rw [visitOf, hreads, hwrites, Stream.taken, hreads, List.flatMap_singleton]

theorem visitOf_answered {ret : Option (List UInt8)} {m : Option Nat}
    (hreads : (e.stream k).reads = [ret]) (hwrites : (e.stream k).writes = [m])
    (hopen : ¬ Gone e.world k) : visitOf e k = .answered (ret.getD []) (m.getD 0) := by
  rw [visitOf, hreads, hwrites, Stream.taken, hreads, List.flatMap_singleton]
  exact if_neg hopen

theorem visitOf_closed {ret : Option (List UInt8)} {m : Option Nat}
    (hreads : (e.stream k).reads = [ret]) (hwrites : (e.stream k).writes = [m])
    (hgone : Gone e.world k) : visitOf e k = .gone (ret.getD []) (m.getD 0) := by
  rw [visitOf, hreads, hwrites, Stream.taken, hreads, List.flatMap_singleton]
  exact if_pos hgone

theorem visitOf_congr (hreads : (e'.stream k).reads = (e.stream k).reads)
    (hwrites : (e'.stream k).writes = (e.stream k).writes)
    (hacc : k ∈ e'.world.accepted ↔ k ∈ e.world.accepted)
    (hgone : Gone e'.world k ↔ Gone e.world k) : visitOf e' k = visitOf e k := by
  unfold visitOf Stream.taken
  rw [hreads, hwrites]
  simp only [hacc, hgone]

/-- An action that accepts and closes nothing does not show. -/
theorem asService_same (hstream : e'.stream = e.stream)
    (harr : e'.world.arrivals = e.world.arrivals) (hacc : e'.world.accepted = e.world.accepted)
    (hclosed : ∀ i, (e'.world.node i).log.closed = (e.world.node i).log.closed) :
    asService e' = asService e := by
  ext1
  · exact harr
  · exact congrArg List.length hacc
  · simp only [asService, hstream]
  · funext k
    exact visitOf_congr (by rw [hstream]) (by rw [hstream]) (by rw [hacc])
      (by simp only [Gone, hclosed])

/-- One by which client `k` gets on. -/
theorem asService_move {v : Visit UInt8} (harr : e'.world.arrivals = e.world.arrivals)
    (hacc : e'.world.accepted = e.world.accepted)
    (hsaid : ∀ k', (e'.stream k').sent = (e.stream k').sent) (hself : visitOf e' k = v)
    (hother : ∀ k', k' ≠ k → visitOf e' k' = visitOf e k') :
    asService e' = (asService e).move k v := by
  ext1
  · exact harr
  · exact congrArg List.length hacc
  · funext k'
    exact hsaid k'
  · funext k'
    show visitOf e' k' = ((asService e).move k v).visit k'
    by_cases hk : k' = k
    · rw [hk, Service.move_visit_self, hself]
    · rw [Service.move_visit_ne _ _ hk]
      exact hother k' hk

theorem closed_setNode {i : Fin n} {nd : Node} (h : nd.log.closed = (w.node i).log.closed)
    (j : Fin n) : ((w.setNode i nd).node j).log.closed = (w.node j).log.closed :=
  forall_setNode (fun j nd => nd.log.closed = (w.node j).log.closed) h (fun _ _ => rfl) j

/-- The next client to be accepted. -/
theorem Inv.next (h : Inv c w) {cs : List Conn} (hback : w.backlog = k :: cs) :
    k = w.accepted.length ∧ w.accepted.length < w.arrivals := by
  have harr := h.arrived
  rw [hback] at harr
  have hlen := congrArg List.length harr
  rw [List.length_append, List.length_cons, List.length_range] at hlen
  have hlt : w.accepted.length < w.arrivals := by omega
  have hget := congrArg (fun l => l[w.accepted.length]?) harr
  simp only [List.getElem?_append_right (Nat.le_refl _), Nat.sub_self, List.getElem?_cons_zero,
    List.getElem?_range hlt] at hget
  exact ⟨Option.some.inj hget, hlt⟩

/-- What is closed has been answered. -/
theorem visitOf_gone (h : Inv c e.world) (he : EchoInv e) (hgone : Gone e.world k) :
    (visitOf e k).inside = false := by
  obtain ⟨i, hclosed⟩ := hgone
  obtain ⟨ret, m, hex⟩ := he.finished i k ((h.phase i).closed_returned hclosed)
  rw [visitOf_closed hex.reads hex.writes ⟨i, hclosed⟩]
  rfl

/-- The places taken are those of the connections open. -/
theorem present_asService (h : Inv c e.world) (he : EchoInv e) :
    (asService e).present = openConns e.world := by
  ext k
  rw [Service.present, openConns, Finset.mem_filter, Finset.mem_filter]
  refine and_congr_right fun hlt => ?_
  constructor
  · intro hin hgone
    have hin : (visitOf e k).inside = true := hin
    rw [visitOf_gone h he hgone] at hin
    cases hin
  · intro hopen
    show (visitOf e k).inside = true
    have hacc : k ∈ e.world.accepted := h.mem_accepted.mpr (Finset.mem_range.mp hlt)
    unfold visitOf
    split
    · rw [if_pos hacc]
      rfl
    · rfl
    · rw [if_neg hopen]
      rfl

theorem refines_accept {conn : Int} (h : Inv c e.world) (he : EchoInv e)
    (hs : e.step (.sys (.parent (.accept conn))) = some e') :
    (Service.lts UInt8 n).Run Lts.Any (asService e) [.enter e.world.accepted.length]
      (asService e') := by
  obtain ⟨-, hw, hstream, -, -⟩ := Echo.step_sys hs
  obtain ⟨p, u, hp, hk, hworld⟩ := World.step_parent hw
  cases hk with
  | @accept _ k cs hback hfree hnew =>
      obtain ⟨rfl, hlt⟩ := h.next hback
      have harr : e'.world.arrivals = e.world.arrivals := by rw [hworld]
      have hacc : e'.world.accepted = e.world.accepted ++ [e.world.accepted.length] := by
        rw [hworld]
      have hnode : e'.world.node = e.world.node := by rw [hworld]
      have hgone : ∀ k, Gone e'.world k ↔ Gone e.world k := fun k => by rw [Gone, hnode, Gone]
      have hplace : (asService e).present.card < n := by
        rw [present_asService h he]
        cases hp with
        | accept hpc =>
            have hctl := h.control
            rw [hpc] at hctl
            exact h.card_open_lt (by rw [hpc]; exact fun _ => rfl) hctl.2 hctl.1
      refine run_single ?_
      rw [Service.step, if_pos ⟨rfl, hlt, hplace⟩]
      congr 1
      ext1
      · exact harr.symm
      · show e.world.accepted.length + 1 = e'.world.accepted.length
        rw [hacc, List.length_append, List.length_singleton]
      · simp only [asService, Service.move, hstream]
      · funext k
        show ((asService e).move e.world.accepted.length .admitted).visit k = visitOf e' k
        by_cases hk : k = e.world.accepted.length
        · subst hk
          -- no callback has been started for it
          have hnot : e.world.accepted.length ∉ e.world.accepted := by
            rw [h.mem_accepted]
            exact Nat.lt_irrefl _
          have huntouched := he.untouched _ fun i hi => hnot (h.accepted_of_started hi)
          rw [Service.move_visit_self]
          refine (visitOf_admitted ?_ (by rw [hacc]; simp)).symm
          rw [hstream]
          exact huntouched.reads
        · rw [Service.move_visit_ne _ _ hk]
          refine (visitOf_congr (by rw [hstream]) (by rw [hstream]) ?_ (hgone k)).symm
          rw [hacc]
          simp [hk]

/-- What a worker is about to close is the one connection it is through with. -/
theorem Phase.closing {stop : Bool} {sent : List Conn} {status : Int} {nd : Node}
    (h : Phase stop sent status nd) (hpc : nd.proc.pc = .closing) :
    ∃ k, nd.fds = [(nd.proc.conn, k)] ∧ nd.log.returned = nd.log.closed ++ [k]
      ∧ nd.log.started = nd.log.closed ++ [k] := by
  cases h with
  | @returned p done k hp => exact ⟨k, rfl, rfl, rfl⟩
  | idle hp | queued hp => exact absurd hpc hp.not_busy.2.2.1
  | received hp | running hp | closed hp | reported hp | exited _ hp | exitedReported _ hp =>
      exact absurd (hp.symm.trans hpc) (by simp)

theorem refines_close {i : Fin n} {fd : Int} (h : Inv c e.world) (he : EchoInv e)
    (hs : e.step (.sys (.worker i (.close fd))) = some e') :
    (Service.lts UInt8 n).Run Lts.Any (asService e)
      (((e.world.node i).fds.lookup fd).toList.map .leave) (asService e') := by
  obtain ⟨-, hw, hstream, -, -⟩ := Echo.step_sys hs
  obtain ⟨nd, hnd, hworld⟩ := World.step_worker hw
  cases Node.step_cases hnd with
  | close hpc =>
      obtain ⟨k, hfds, hreturned, hstarted⟩ := (h.phase i).closing hpc
      have hlook : (e.world.node i).fds.lookup (e.world.node i).proc.conn = some k := by
        rw [hfds, List.lookup_cons_self]
      obtain ⟨ret, m, hex⟩ := he.finished i k (by rw [hreturned]; simp)
      have hopen : ¬ Gone e.world k := by
        rintro ⟨j, hj⟩
        have hmine : k ∈ (e.world.node i).log.started := by rw [hstarted]; simp
        have hother := h.mem_started.mpr (.inl ((h.phase j).closed_returned hj))
        obtain rfl := h.exclusive.inj hother hmine
        have hnd := h.exclusive.nodup j
        rw [hstarted] at hnd
        exact (List.nodup_append.mp hnd).2.2 k hj k (by simp) rfl
      have hgone : ∀ k', Gone e'.world k' ↔ k' = k ∨ Gone e.world k' := by
        intro k'
        have hclosed : ∀ j, k' ∈ (e'.world.node j).log.closed ↔
            j = i ∧ k' = k ∨ k' ∈ (e.world.node j).log.closed := by
          intro j
          rw [hworld]
          by_cases hji : j = i
          · subst hji
            rw [setNode_node_self, hlook]
            simp [or_comm]
          · rw [setNode_node_ne _ _ hji]
            simp [hji]
        simp only [Gone, hclosed, exists_or, exists_and_right, exists_eq, true_and]
      have hnext : asService e'
          = (asService e).move k (.gone (ret.getD []) (m.getD 0)) := by
        refine asService_move (by rw [hworld]; rfl) (by rw [hworld]; rfl) ?_ ?_ ?_
        · exact fun k' => by rw [hstream]
        · refine visitOf_closed ?_ ?_ ((hgone k).mpr (.inl rfl))
          · rw [hstream]
            exact hex.reads
          · rw [hstream]
            exact hex.writes
        · intro k' hne
          refine visitOf_congr (by rw [hstream]) (by rw [hstream]) (by rw [hworld]; rfl) ?_
          rw [hgone k']
          exact or_iff_right hne
      have hthere : (asService e).visit k = .answered (ret.getD []) (m.getD 0) :=
        visitOf_answered hex.reads hex.writes hopen
      rw [hlook, hnext]
      refine run_single ?_
      rw [Service.step, hthere]

/-! ## The callback's calls -/

theorem read_stage {f f' : Callback} {s s' : Stream} {ret : Option (List UInt8)} (h : Stage f s)
    (hs : Callback.Step f s (.read ret) f' s') :
    Untouched s ∧ s'.reads = [ret] ∧ s'.writes = [] ∧ ret.getD [] <+: s.pending := by
  cases hs with
  | failed hpc =>
      rw [Stage, hpc] at h
      exact ⟨h, by simp [h.reads], h.writes, List.nil_prefix⟩
  | read hpc hlen hpre heof =>
      rw [Stage, hpc] at h
      exact ⟨h, by simp [h.reads], h.writes, hpre⟩

theorem write_stage {f f' : Callback} {s s' : Stream} {m : Option Nat} (h : Stage f s)
    (hs : Callback.Step f s (.write m) f' s') :
    ∃ ret, HasRead f s ret ∧ s'.reads = [ret] ∧ s'.writes = [m]
      ∧ m.getD 0 ≤ (ret.getD []).length := by
  have hdone := stage_step h hs
  cases hs with
  | refused hpc =>
      rw [Stage, hpc] at h
      obtain ⟨ret, hret⟩ := h
      exact ⟨ret, hret, hret.reads, by simp [hret.writes], Nat.zero_le _⟩
  | @write m hpc hm hsize =>
      rw [Stage, hpc] at h
      obtain ⟨ret, hret⟩ := h
      obtain ⟨ret', m', hex⟩ := hdone
      have hreads : [ret] = [ret'] := hret.reads.symm.trans hex.reads
      have hwrites : s.writes ++ [some m] = [m'] := hex.writes
      rw [hret.writes] at hwrites
      cases hreads
      cases hwrites
      exact ⟨ret, hret, hret.reads, by simp [hret.writes], hex.short⟩

theorem refines_callback {i : Fin n} {call : CallbackCall} (h : Inv c e.world) (he : EchoInv e)
    (hs : e.step (.callback i call) = some e') :
    (Service.lts UInt8 n).Run Lts.Any (asService e) (happens e (.callback i call))
      (asService e') := by
  obtain ⟨hpc, f, k, s, hk, hstep, heq⟩ := Echo.step_callback hs
  have hworld : e'.world = e.world := by rw [heq]; rfl
  have hself : e'.stream k = s := by rw [heq]; exact Function.update_self k _ _
  have hne : ∀ k', k' ≠ k → e'.stream k' = e.stream k' := by
    intro k' hk'
    rw [heq]
    exact Function.update_of_ne hk' _ _
  have hengaged := he.apart.engaged_of_lookup h.exclusive hpc hk
  obtain ⟨_, hstage⟩ := he.running i _ k hengaged
  have hacc : k ∈ e.world.accepted :=
    h.accepted_of_started (h.mem_started.mpr (.inr ⟨_, hengaged⟩))
  have hopen : ¬ Gone e.world k := by
    rintro ⟨j, hj⟩
    exact (h.exclusive.alone hengaged).1 j ((h.phase j).closed_returned hj)
  have hclient : client e i = some k := hk
  -- this client gets on, and no other does
  have hmove : ∀ {v}, visitOf e' k = v → asService e' = (asService e).move k v := by
    intro v hv
    refine asService_move (by rw [hworld]) (by rw [hworld]) ?_ hv ?_
    · intro k'
      by_cases hkk : k' = k
      · rw [hkk, hself, (taken_pending_step hstep).1]
      · rw [hne k' hkk]
    · intro k' hkk
      exact visitOf_congr (by rw [hne k' hkk]) (by rw [hne k' hkk]) (by rw [hworld])
        (by rw [hworld])
  cases call with
  | read ret =>
      obtain ⟨huntouched, hreads, hwrites, hpre⟩ := read_stage hstage hstep
      have hthere : (asService e).visit k = .admitted := visitOf_admitted huntouched.reads hacc
      have hsaid : ret.getD [] <+: (asService e).said k := by
        show _ <+: (e.stream k).sent
        rw [he.sent k, Stream.taken, huntouched.reads]
        exact hpre
      rw [← hself] at hreads hwrites
      rw [hmove (visitOf_heard hreads hwrites), happens, hclient]
      refine run_single ?_
      rw [Service.step, if_pos ⟨hthere, hsaid⟩]
  | hexdump fuel =>
      have hstream : e'.stream = e.stream := by
        funext k'
        by_cases hkk : k' = k
        · cases hstep
          rw [hkk, hself]
        · exact hne k' hkk
      rw [asService_same hstream (by rw [hworld]) (by rw [hworld]) fun i => by rw [hworld]]
      exact .nil _
  | write m =>
      obtain ⟨ret, hret, hreads, hwrites, hle⟩ := write_stage hstage hstep
      have hthere : (asService e).visit k = .heard (ret.getD []) :=
        visitOf_heard hret.reads hret.writes
      rw [← hself] at hreads hwrites
      rw [hmove (visitOf_answered hreads hwrites (by rw [hworld]; exact hopen)), happens, hclient]
      refine run_single ?_
      rw [Service.step, hthere]
      exact if_pos hle

/-! ## Every action -/

/-- A worker closes a connection by `close` only. -/
theorem closed_worker {nd nd' : Node} {call : WorkerCall} (hs : nd.step call = some nd')
    (hclose : ∀ fd, call ≠ .close fd) : nd'.log.closed = nd.log.closed := by
  cases Node.step_cases hs with
  | close hpc => exact absurd rfl (hclose _)
  | _ => rfl

theorem refines_worker {i : Fin n} {call : WorkerCall} (h : Inv c e.world) (he : EchoInv e)
    (hs : e.step (.sys (.worker i call)) = some e') :
    (Service.lts UInt8 n).Run Lts.Any (asService e) (happens e (.sys (.worker i call)))
      (asService e') := by
  by_cases hclose : ∃ fd, call = .close fd
  · obtain ⟨fd, rfl⟩ := hclose
    exact refines_close h he hs
  · obtain ⟨-, hw, hstream, -, -⟩ := Echo.step_sys hs
    obtain ⟨nd, hnd, hworld⟩ := World.step_worker hw
    have hclosed := closed_worker hnd (not_exists.mp hclose)
    have hsame : asService e' = asService e := by
      refine asService_same hstream (by rw [hworld]; rfl) (by rw [hworld]; rfl) ?_
      rw [hworld]
      exact closed_setNode hclosed
    rw [hsame]
    cases call with
    | close fd => exact absurd ⟨fd, rfl⟩ hclose
    | _ => exact .nil _

theorem refines_parent {call : Call n} (h : Inv c e.world) (he : EchoInv e)
    (hs : e.step (.sys (.parent call)) = some e') :
    (Service.lts UInt8 n).Run Lts.Any (asService e) (happens e (.sys (.parent call)))
      (asService e') := by
  have haccept : ∀ conn, call = .accept conn →
      (Service.lts UInt8 n).Run Lts.Any (asService e) [.enter e.world.accepted.length]
        (asService e') := by
    rintro conn rfl
    exact refines_accept h he hs
  obtain ⟨-, hw, hstream, -, -⟩ := Echo.step_sys hs
  obtain ⟨p, u, _, hk, hworld⟩ := World.step_parent hw
  have hsame : u.arrivals = e.world.arrivals → u.accepted = e.world.accepted →
      (∀ i, (u.node i).log.closed = (e.world.node i).log.closed) →
      asService e' = asService e := by
    intro harr hacc hclosed
    exact asService_same hstream (by rw [hworld]; exact harr) (by rw [hworld]; exact hacc)
      (by rw [hworld]; exact hclosed)
  cases hk with
  | accept hback hfree hnew => exact haccept _ rfl
  | sent halive hlook =>
      rw [hsame rfl rfl (closed_setNode rfl)]
      exact .nil _
  | byte hout =>
      rw [hsame rfl rfl (closed_setNode rfl)]
      exact .nil _
  | written halive =>
      rw [hsame rfl rfl (closed_setNode rfl)]
      exact .nil _
  | reaped hgone hnot =>
      rw [hsame rfl rfl (closed_setNode rfl)]
      exact .nil _
  | _ =>
      rw [hsame rfl rfl fun _ => rfl]
      exact .nil _

/-- What a client does moves nobody. -/
theorem visitOf_client {s : Stream} (hreads : s.reads = (e.stream k).reads)
    (hwrites : s.writes = (e.stream k).writes) : visitOf (e.setStream k s) = visitOf e := by
  funext k'
  by_cases hkk : k' = k
  · subst hkk
    have hself : (e.setStream k' s).stream k' = s := Function.update_self k' _ _
    exact visitOf_congr (by rw [hself, hreads]) (by rw [hself, hwrites]) Iff.rfl Iff.rfl
  · have hne : (e.setStream k s).stream k' = e.stream k' := Function.update_of_ne hkk _ _
    exact visitOf_congr (by rw [hne]) (by rw [hne]) Iff.rfl Iff.rfl

/-- Only what client `k` has said can change with its connection. -/
theorem asService_client {s : Stream} (hreads : s.reads = (e.stream k).reads)
    (hwrites : s.writes = (e.stream k).writes) :
    asService (e.setStream k s)
      = { asService e with said := Function.update (asService e).said k s.sent } := by
  ext1
  · rfl
  · rfl
  · funext k'
    show (Function.update e.stream k s k').sent = Function.update (asService e).said k s.sent k'
    by_cases hkk : k' = k
    · rw [hkk, Function.update_self, Function.update_self]
    · rw [Function.update_of_ne hkk, Function.update_of_ne hkk]
      rfl
  · exact visitOf_client hreads hwrites

/-- **Every action is an event of the service, or does not show.** -/
theorem refines_step {l : EchoLabel n} (h : Inv c e.world) (he : EchoInv e)
    (hok : EchoFaultFree e l) (hs : e.step l = some e') :
    (Service.lts UInt8 n).Run Lts.Any (asService e) (happens e l) (asService e') := by
  cases l with
  | callback i call => exact refines_callback h he hs
  | send k bs =>
      obtain ⟨hk, rfl⟩ := Echo.step_send hs
      have hlt : k < (asService e).arrived := hk
      rw [asService_client]
      · refine run_single ?_
        rw [Service.step, if_pos hlt]
        rfl
      · rfl
      · rfl
  | finish k =>
      obtain ⟨_, rfl⟩ := Echo.step_finish hs
      have hsaid : Function.update (asService e).said k (e.stream k).sent = (asService e).said :=
        Function.update_eq_self k _
      rw [asService_client]
      · rw [hsaid]
        exact .nil _
      · rfl
      · rfl
  | sys l =>
      cases l with
      | parent call => exact refines_parent h he hs
      | worker i call => exact refines_worker h he hs
      | arrive =>
          obtain ⟨-, hw, hstream, -, -⟩ := Echo.step_sys hs
          have hworld : e'.world = { e.world with
              backlog := e.world.backlog ++ [e.world.arrivals]
              arrivals := e.world.arrivals + 1 } := (Option.some.inj hw).symm
          have hnext : asService e' = { asService e with arrived := e.world.arrivals + 1 } := by
            ext1
            · exact congrArg World.arrivals hworld
            · rw [asService, hworld]
              rfl
            · simp only [asService, hstream]
            · funext k
              refine visitOf_congr (by rw [hstream]) (by rw [hstream]) (by rw [hworld]) ?_
              rw [hworld]
              rfl
          rw [hnext]
          exact run_single rfl
      | die i => cases hok
      | stderr i b => cases hok

end Steps

/-! ## Every run -/

theorem refines_run {cmd : Fin n → UInt8} {mem : Fin n → Bytes.Buffer} {ls : List (EchoLabel n)}
    {e : Echo n} (h : (Echo.lts c).Run EchoFaultFree (Echo.start c cmd mem) ls e) :
    (Service.lts UInt8 n).Run Lts.Any (asService (Echo.start c cmd mem))
      ((Echo.lts c).outputs happens (Echo.start c cmd mem) ls) (asService e) := by
  refine h.refines (P := fun e => Inv c e.world ∧ EchoInv e) ?_
    ⟨inv_init c cmd, echoInv_start cmd mem⟩
  intro e l e' hinv hok hs
  exact ⟨echoInv_step hinv hok hs, refines_step hinv.1 hinv.2 hok hs⟩

/--
**The echo service is a service with a place for each worker.**

Whatever the parent and the workers do in between, what happens to the clients in
a run, in the order it happens, is a run of the service.
-/
theorem echo_is_service (c : Numbering n) {cmd : Fin n → UInt8} {mem : Fin n → Bytes.Buffer}
    {ls : List (EchoLabel n)} {e : Echo n}
    (h : (Echo.lts c).Run EchoFaultFree (Echo.start c cmd mem) ls e) :
    (Service.lts UInt8 n).Run Lts.Any .start
      ((Echo.lts c).outputs happens (Echo.start c cmd mem) ls) (asService e) :=
  refines_run h

/-- What two clients see who are answered in turns. -/
def twoVisits : List (Service.Event UInt8) :=
  [.arrive, .enter 0, .arrive, .enter 1, .say 0 [65, 66, 67], .say 1 [90], .hear 0 [65, 66, 67],
    .hear 1 [90], .answer 1 1, .answer 0 2]

theorem twoClients_run :
    ∃ e, (Echo.lts .twoWorkers).Run EchoFaultFree (Echo.start .twoWorkers (fun _ => 0) fun _ _ => 0)
        twoClients e ∧ e.world.accepted = [0, 1] ∧
      (Echo.lts .twoWorkers).outputs happens (Echo.start .twoWorkers (fun _ => 0) fun _ _ => 0)
        twoClients = twoVisits :=
  Lts.exists_run_of_exec (by decide +kernel)

theorem echo_is_service_twoClients :
    ∃ s, (Service.lts UInt8 2).Run Lts.Any .start twoVisits s := by
  obtain ⟨e, hrun, -, hvisits⟩ := twoClients_run
  have hservice := echo_is_service .twoWorkers hrun
  rw [hvisits] at hservice
  exact ⟨_, hservice⟩

/-- **Clients come in first come first served, as many at a time as there are workers, and each is
accepted, read from, written to and closed, in this order and once.** No more is written than was
read. -/
theorem served_in_turn (c : Numbering n) {cmd : Fin n → UInt8} {mem : Fin n → Bytes.Buffer}
    {ls : List (EchoLabel n)} {e : Echo n}
    (h : (Echo.lts c).Run EchoFaultFree (Echo.start c cmd mem) ls e) :
    e.world.accepted = List.range e.world.accepted.length ∧ (openConns e.world).card ≤ n ∧
      ∀ k, ((Echo.lts c).outputs happens (Echo.start c cmd mem) ls).filter (Service.about k)
          = Service.history k (visitOf e k)
        ∧ (visitOf e k).given ≤ (visitOf e k).words.length := by
  have hrun := refines_run h
  obtain ⟨hinv, he⟩ := echoInv_reachable ⟨_, _, ⟨cmd, mem, rfl⟩, h⟩
  have hsound := Service.sound_run hrun (Service.sound_start n)
  have hplaces := hsound.places
  rw [present_asService hinv he] at hplaces
  refine ⟨hinv.accepted_eq, hplaces, ?_⟩
  intro k
  exact ⟨Service.history_run hrun (Service.sound_start n) k, hsound.given k⟩

theorem served_in_turn_twoClients :
    ∃ e : Echo 2, e.world.accepted = [0, 1] ∧
      [.enter 0, .hear 0 [65, 66, 67], .answer 0 2] = Service.history 0 (visitOf e 0) := by
  obtain ⟨e, hrun, hacc, hvisits⟩ := twoClients_run
  have hhistory := ((served_in_turn .twoWorkers hrun).2.2 0).1
  rw [hvisits] at hhistory
  exact ⟨e, hacc, hhistory⟩

end TcpServer.Proof
