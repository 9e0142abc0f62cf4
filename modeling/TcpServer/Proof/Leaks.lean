import TcpServer.Model.Lifetime
import TcpServer.Proof.Dispatching

/-!
# What a server object leaves open

The parent opens the listening socket, its end of each channel and every
connection it accepts. The run loop closes the connections, whatever becomes of
them (`run_balance`), and `tcp_server_destroy` the listening socket. Nobody
closes the ends of the channels: `worker_pool_destroy` only frees its memory.
So a server that was dispatched leaves as many descriptors open as it has
workers.

One that was not is destroyed without its socket having been forgotten: the
error exits of `tcp_server_init` close it and leave its number in `sock_fd`,
where `tcp_server_destroy` finds it and closes it again. Only a socket numbered
`0` escapes, because `0` also stands for "no socket" there.
-/

namespace TcpServer.Proof

open TcpServer

variable {n : Nat}

/-- The ledger is in order for every number a descriptor can have. -/
def LedgerKept (es : List FdEvent) : Prop := ∀ fd : Int, 0 ≤ fd → Ledger.Kept fd es

/-- `tcp_server_init` gives up before it has a socket, or with one that `tcp_server_destroy` takes
for none. -/
def LeavesNothing (c : InitCalls) : Prop :=
  (∀ fd, c.lookup ≠ .found fd) ∨ c.socket = none ∨
    (c.socket = some 0 ∧ ¬ (c.setsockopt = true ∧ c.bind = true ∧ c.listen = true))

/-! ## The way in -/

/-- The two ends a call of `tcp_server_init` with an address and a socket can come to. -/
theorem init_with_socket {c : InitCalls} {t fd : Nat} (hlookup : c.lookup = .found t)
    (hsock : c.socket = some fd) :
    tcpServerInit c =
      if c.setsockopt = true ∧ c.bind = true ∧ c.listen = true then
        ⟨0, fd, [.opened t, .closed t, .opened fd]⟩
      else ⟨-1, fd, [.opened t, .closed t, .opened fd, .closed fd]⟩ := by
  cases hso : c.setsockopt <;> cases hb : c.bind <;> cases hl : c.listen <;>
    simp [tcpServerInit, netGetIpv4FromIface, hlookup, hsock, hso, hb, hl]

/-- It returns `0` in one way only. -/
theorem init_ok {c : InitCalls} (h : (tcpServerInit c).ret = 0) :
    ∃ t fd : Nat, c.lookup = .found t ∧ c.socket = some fd ∧
      (c.setsockopt = true ∧ c.bind = true ∧ c.listen = true) ∧
      tcpServerInit c = ⟨0, fd, [.opened t, .closed t, .opened fd]⟩ := by
  cases hlookup : c.lookup with
  | noSocket => simp [tcpServerInit, netGetIpv4FromIface, hlookup] at h
  | noAddress t => simp [tcpServerInit, netGetIpv4FromIface, hlookup] at h
  | found t =>
      cases hsock : c.socket with
      | none => simp [tcpServerInit, netGetIpv4FromIface, hlookup, hsock] at h
      | some fd =>
          have heq := init_with_socket hlookup hsock
          by_cases hall : c.setsockopt = true ∧ c.bind = true ∧ c.listen = true
          · rw [if_pos hall] at heq
            exact ⟨t, fd, rfl, rfl, hall, heq⟩
          · rw [if_neg hall] at heq
            rw [heq] at h
            cases h

theorem init_ret (c : InitCalls) : (tcpServerInit c).ret = 0 ∨ (tcpServerInit c).ret = -1 := by
  unfold tcpServerInit
  dsimp only
  split
  · exact Or.inr rfl
  split
  · exact Or.inr rfl
  split
  · exact Or.inr rfl
  split
  · exact Or.inr rfl
  split
  · exact Or.inr rfl
  · exact Or.inl rfl

/-- The lookup closes the socket it opens. -/
theorem kept_lookup (t : Nat) : LedgerKept [.opened (t : Int), .closed t] := by
  intro fd _
  exact Ledger.kept_pair.mpr ⟨fun _ => rfl, Ledger.kept_nil fd⟩

/-- A `-1` in `sock_fd` is closed too, which is no descriptor. -/
theorem kept_no_socket (t : Nat) : LedgerKept [.opened (t : Int), .closed t, .closed (-1)] := by
  intro fd hfd
  have hne : (-1 : Int) ≠ fd := by omega
  refine Ledger.kept_pair.mpr ⟨fun _ => by simp [hne], ?_⟩
  exact Ledger.kept_cons.mpr ⟨by simp, by simp [hne], Ledger.kept_nil fd⟩

/-- A socket closed on an error exit is closed again, unless its number is `0`. -/
theorem kept_error_exit_iff (t s : Nat) :
    LedgerKept ([.opened (t : Int), .closed t, .opened s, .closed s] ++ tcpServerDestroy s) ↔
      s = 0 := by
  constructor
  · intro hkept
    by_contra hs
    have hne : (s : Int) ≠ 0 := by omega
    have hagain := (hkept s (by omega)).notAgain [.opened (t : Int), .closed t, .opened s]
      [.closed s] (by rw [tcpServerDestroy_ne hne]; rfl)
    simp at hagain
  · intro hs fd _
    subst hs
    have hrest : Ledger.Kept fd [.opened (0 : Int), .closed 0] :=
      Ledger.kept_pair.mpr ⟨fun _ => rfl, Ledger.kept_nil fd⟩
    refine Ledger.kept_pair.mpr ⟨fun _ => ?_, hrest⟩
    by_cases h0 : (0 : Int) = fd
    · subst h0; simp
    · simp [h0]

/-- After a failed `tcp_server_init`, the object must not have had a socket to close. -/
theorem refused_kept_iff {c : InitCalls} (h : (tcpServerInit c).ret ≠ 0) :
    LedgerKept ((tcpServerInit c).events ++ tcpServerDestroy (tcpServerInit c).sockFd) ↔
      LeavesNothing c := by
  cases hlookup : c.lookup with
  | noSocket =>
      have heq : tcpServerInit c = ⟨-1, 0, []⟩ := by
        simp [tcpServerInit, netGetIpv4FromIface, hlookup]
      rw [heq]
      exact iff_of_true (fun fd _ => Ledger.kept_nil fd) (.inl (by simp [hlookup]))
  | noAddress t =>
      have heq : tcpServerInit c = ⟨-1, 0, [.opened t, .closed t]⟩ := by
        simp [tcpServerInit, netGetIpv4FromIface, hlookup]
      rw [heq]
      exact iff_of_true (kept_lookup t) (.inl (by simp [hlookup]))
  | found t =>
      cases hsock : c.socket with
      | none =>
          have heq : tcpServerInit c = ⟨-1, -1, [.opened t, .closed t]⟩ := by
            simp [tcpServerInit, netGetIpv4FromIface, hlookup, hsock]
          rw [heq]
          exact iff_of_true (kept_no_socket t) (.inr (.inl hsock))
      | some s =>
          have heq := init_with_socket hlookup hsock
          have hfail : ¬ (c.setsockopt = true ∧ c.bind = true ∧ c.listen = true) := by
            intro hall
            rw [if_pos hall] at heq
            exact h (by rw [heq])
          rw [if_neg hfail] at heq
          rw [heq]
          refine (kept_error_exit_iff t s).trans ⟨?_, ?_⟩
          · intro hs
            subst hs
            exact .inr (.inr ⟨hsock, hfail⟩)
          · intro hleaves
            simpa [LeavesNothing, hlookup, hsock, hfail] using hleaves

/-! ## Dispatching -/

/-- `sockfd[1]` of a channel just made is still open in the parent. -/
def unclosed : DispatchPc n → Int → Nat
  | .forking _ _ _ b, fd => if (b : Int) = fd then 1 else 0
  | .looping _, _ | .returned _, _ | .routine _, _ => 0

/-- The variable `sockfd[1]` holds what `socketpair` stored last. -/
def HoldsSecond (pc : DispatchPc n) (sockfd1 : Nat) : Prop :=
  ∀ i is a b, pc = .forking i is a b → sockfd1 = b

/-- The parent closes what it opened, or less. -/
theorem dispatch_balance {self : Listener} {fds : Descriptors (File n)} {p q : Dispatching n}
    {ds : List DispatchCall}
    (h : (Dispatching.lts self fds).Run (fun _ c => c.Succeeds) p ds q) (fd : Int) :
    ∀ sockfd1 : Nat, HoldsSecond p.pc sockfd1 →
      (dispatchEvents sockfd1 ds).count (.closed fd)
        ≤ (dispatchEvents sockfd1 ds).count (.opened fd) + unclosed p.pc fd := by
  -- from the last call back, so that what is open counts at the front
  induction h with
  | nil p => intro sockfd1 _; simp [dispatchEvents]
  | cons hok hs _ ih =>
      intro sockfd1 hsecond
      cases Dispatching.step_cases hs with
      | @paired i is a b hpc hab ha hb =>
          have hrest := ih b (by intro j js a' b' hj; cases hj; rfl)
          rw [hpc]
          simp only [dispatchEvents, unclosed, List.count_cons] at hrest ⊢
          by_cases hbx : (b : Int) = fd
          · simp [hbx] at hrest ⊢; omega
          · simp [hbx] at hrest ⊢; omega
      | unpaired hpc => exact absurd rfl hok
      | @parent i is a b pid hpc hpid =>
          have hb := hsecond i is a b hpc
          subst hb
          have hrest := ih sockfd1 (by intro j js a' b' hj; cases hj)
          rw [hpc]
          simp only [dispatchEvents, unclosed, List.count_cons] at hrest ⊢
          by_cases hbx : (sockfd1 : Int) = fd
          · simp [hbx] at hrest ⊢; omega
          · simp [hbx] at hrest ⊢; omega
      | @routine i is a b pid hpc hpid =>
          have hpos : 0 < pid := hok
          omega
      | signal hpc =>
          have hrest := ih sockfd1 (by intro j js a' b' hj; cases hj)
          rw [hpc]
          simpa [dispatchEvents, unclosed] using hrest

/-- **The parent's end of the first channel is not among what dispatching closes.** -/
theorem dispatch_leaks {self : Listener} {fds : Descriptors (File n)} {q : Dispatching n}
    {ds : List DispatchCall} (hn : 0 < n)
    (h : (Dispatching.lts self fds).Run (fun _ c => c.Succeeds) (Dispatching.start self fds) ds q)
    (hq : q.pc ≠ .looping (List.finRange n)) :
    ∃ a : Nat, fds.get a = none ∧
      (dispatchEvents 0 ds).count (.closed (a : Int))
        < (dispatchEvents 0 ds).count (.opened (a : Int)) := by
  obtain ⟨m, rfl⟩ : ∃ m, n = m + 1 := ⟨n - 1, by omega⟩
  have hstart : (Dispatching.start self fds).pc = .looping (List.finRange (m + 1)) := rfl
  cases h with
  | nil => exact absurd hstart hq
  | cons hok hs hrest =>
      rw [List.finRange_succ] at hstart
      cases Dispatching.step_cases hs with
      | @paired i is a b hpc hab ha hb =>
          refine ⟨a, ha, ?_⟩
          have hbal := dispatch_balance hrest (a : Int) b
            (by intro j js a' b' hj; cases hj; rfl)
          have hba : (b : Int) ≠ a := by omega
          simp only [dispatchEvents, unclosed, List.count_cons] at hbal ⊢
          simp [hba] at hbal ⊢
          omega
      | unpaired hpc => exact absurd rfl hok
      | parent hpc hpid => rw [hstart] at hpc; cases hpc
      | routine hpc hpid => rw [hstart] at hpc; cases hpc
      | signal hpc => rw [hstart] at hpc; cases hpc

theorem dispatch_sockFd {self : Listener} {fds : Descriptors (File n)} {p q : Dispatching n}
    {ok : Dispatching n → DispatchCall → Prop} {ds : List DispatchCall}
    (h : (Dispatching.lts self fds).Run ok p ds q) : q.self.sockFd = p.self.sockFd := by
  induction h with
  | nil => rfl
  | cons _ hs _ ih =>
      rw [ih]
      cases Dispatching.step_cases hs with
      | _ => rfl

/-! ## Running -/

/-- The connection accepted last is still open in the parent. -/
def unreleased : Pc n → Int → Nat
  | .submitting conn _ _, fd | .closing conn _ _, fd => if conn = fd then 1 else 0
  | .dispatched, _ | .loopTop, _ | .inSelect _, _ | .selected .., _ | .accepting .., _
  | .scanning .., _ | .terminating _, _ | .waiting, _ | .returned, _ | .overrun, _
  | .killed, _ => 0

@[simp] theorem unreleased_submitting (conn nsel : Int) (rset : Finset Nat) (fd : Int) :
    unreleased (.submitting conn nsel rset : Pc n) fd = if conn = fd then 1 else 0 := rfl

@[simp] theorem unreleased_closing (conn nsel : Int) (rset : Finset Nat) (fd : Int) :
    unreleased (.closing conn nsel rset : Pc n) fd = if conn = fd then 1 else 0 := rfl

@[simp] theorem unreleased_afterClose (nsel : Int) (rset : Finset Nat) (fd : Int) :
    unreleased (Parent.afterClose nsel rset : Pc n) fd = 0 := by
  unfold Parent.afterClose
  split <;> rfl

@[simp] theorem unreleased_afterRead (is : List (Fin n)) (nsel : Int) (rset : Finset Nat)
    (fd : Int) : unreleased (Parent.afterRead is nsel rset) fd = 0 := by
  unfold Parent.afterRead
  split <;> rfl

@[simp] theorem unreleased_afterTest (p : Parent n) (nsel : Int) (rset : Finset Nat) (fd : Int) :
    unreleased (p.afterTest nsel rset) fd = 0 := by
  unfold Parent.afterTest
  split
  · rfl
  · split <;> rfl

@[simp] theorem unreleased_afterSignal (pc : Pc n) (fd : Int) :
    unreleased (Parent.afterSignal pc) fd = unreleased pc fd := by
  unfold Parent.afterSignal
  split <;> rfl

/-- A call of the run loop closes nothing but what was accepted before it. -/
theorem step_balance {p q : Parent n} {c : Call n} (hs : Parent.Step p c q) {fd : Int}
    (hfd : 0 ≤ fd) :
    c.events.count (.closed fd) + unreleased q.pc fd
      ≤ c.events.count (.opened fd) + unreleased p.pc fd := by
  cases hs with
  | @accept conn nsel rset hpc =>
      rw [hpc]
      by_cases hconn : 0 ≤ conn
      · simp only [Call.events, if_pos hconn, unreleased, List.count_singleton]
        by_cases h : conn = fd
        · simp [h]
        · simp [h]
      · have hne : conn ≠ fd := by omega
        simp [Call.events, hconn, unreleased, hne]
  | @close conn nsel rset hpc =>
      rw [hpc]
      by_cases h : conn = fd
      · simp [Call.events, h]
      · simp [Call.events, h]
  | submit hpc hi hret => rw [hpc]; simp [Call.events]
  | free hpc hfd hret => simp [Call.events]
  | test hpc => simp [Call.events]
  | sigint => simp [Call.events]
  | reap hpc => exact Nat.le_refl _
  | _ => simp [Call.events, unreleased]

/-- **No connection is closed that was not accepted**, and each at most once. -/
theorem run_balance {self : Server n} {ok : Parent n → Call n → Prop} {p q : Parent n}
    {ls : List (Call n)} (h : (Parent.lts self).Run ok p ls q) {fd : Int} (hfd : 0 ≤ fd) :
    (ls.flatMap Call.events).count (.closed fd) + unreleased q.pc fd
      ≤ (ls.flatMap Call.events).count (.opened fd) + unreleased p.pc fd := by
  induction h with
  | nil => simp
  | cons _ hs _ ih =>
      have hstep := step_balance (Parent.step_cases hs) hfd
      rw [List.flatMap_cons, List.count_append, List.count_append]
      omega

/-! ## The whole life -/

/-- A server that was dispatched never gives back its end of a channel. -/
theorem served_not_kept {c : InitCalls} {fd : Nat} {fds : Descriptors (File n)}
    {ds : List DispatchCall} {d : Dispatching n} {ls : List (Call n)} {p : Parent n} (hn : 0 < n)
    (hret : (tcpServerInit c).ret = 0) (hfd : (tcpServerInit c).sockFd = fd)
    (hopen : fds.get fd = some .listening)
    (hdispatch : (Dispatching.lts (Listener.listen fd) fds).Run (fun _ c => c.Succeeds)
      (Dispatching.start (Listener.listen fd) fds) ds d)
    (hd : d.pc = .returned 0)
    (hrun : (Parent.lts d.self).Run Lts.Any (Parent.start d.self) ls p) :
    ¬ LedgerKept ((tcpServerInit c).events ++ dispatchEvents 0 ds ++ ls.flatMap Call.events ++
      tcpServerDestroy p.self.sockFd) := by
  intro hkept
  obtain ⟨a, ha, hleak⟩ := dispatch_leaks hn hdispatch (by rw [hd]; simp)
  have hne : (fd : Int) ≠ a := by
    intro heq
    rw [← Int.ofNat.inj heq, hopen] at ha
    cases ha
  have hsock : p.self.sockFd = fd := by
    rw [(Parent.layout_run hrun).sockFd]
    exact dispatch_sockFd hdispatch
  have hbal := run_balance hrun (show (0 : Int) ≤ a by omega)
  have htotal := (hkept a (by omega)).count_closed
  obtain ⟨t, s, _, _, _, heq⟩ := init_ok hret
  rw [heq] at hfd htotal
  have hs : (s : Int) ≠ a := by
    intro h
    exact hne (hfd.symm.trans h)
  have hdestroy : (tcpServerDestroy (p.self.sockFd : Int)).count (.closed (a : Int)) = 0 := by
    rw [hsock]
    unfold tcpServerDestroy
    split <;> simp [hne]
  have hinit : [Ledger.Event.opened (t : Int), .closed t, .opened s].count (.closed (a : Int))
      ≤ [Ledger.Event.opened (t : Int), .closed t, .opened s].count (.opened (a : Int)) := by
    by_cases ht : (t : Int) = a
    · simp [ht, hs]
    · simp [ht, hs]
  simp only [List.count_append] at htotal
  have hstart : unreleased (Parent.start d.self).pc (a : Int) = 0 := rfl
  omega

/--
**The ledger is kept exactly if there never was a socket that
`tcp_server_destroy` could see.**
-/
theorem ledger_kept_iff {c : InitCalls} {es : List FdEvent} (hn : 0 < n) (h : Lifetime n c es) :
    LedgerKept es ↔ LeavesNothing c := by
  cases h with
  | refused hret => exact refused_kept_iff hret
  | served hret hfd hopen hdispatch hd hrun hp =>
      refine iff_of_false (served_not_kept hn hret hfd hopen hdispatch hd hrun) ?_
      obtain ⟨t, s, hlookup, hsock, hall, _⟩ := init_ok hret
      simp [LeavesNothing, hlookup, hsock, hall]

/-- Lookup and socket both get `3`; `tcp_server_init` goes through if `bind` does. -/
def initOnThree (bind : Bool) : InitCalls where
  lookup := .found 3
  socket := some 3
  setsockopt := true
  bind := bind
  listen := true

/-- One worker, dispatched on `4` and `5` after the socket on `3`; `SIGINT` arrives in the first
`select`. The parent's end of the channel, `4`, stays open. -/
theorem ledger_kept_iff_oneWorker :
    ¬ LedgerKept [.opened 3, .closed 3, .opened 3, .opened 4, .opened 5, .closed 5, .closed 3] := by
  obtain ⟨d, hdispatch, hfd, hd, hrun⟩ : ∃ d : Dispatching 1,
      (Dispatching.lts (Listener.listen 3) (usualTable 1)).Run (fun _ c => c.Succeeds)
        (Dispatching.start (Listener.listen 3) (usualTable 1))
        [.socketpair (some (4, 5)), .fork 7, .signal] d ∧ d.self.sockFd = 3 ∧ d.pc = .returned 0 ∧
      ∃ p ∈ (Parent.lts d.self).exec Lts.Any (Parent.start d.self)
        [.tau, .select, .sigint, .tau, .write solo cmdStop .ok, .tau, .wait none],
        p.self.sockFd = 3 ∧ p.pc = .returned :=
    Lts.exists_run_of_exec (by decide +kernel)
  obtain ⟨p, hrun, hp3, hp⟩ := Lts.exists_run_of_exec hrun
  have hlife : Lifetime 1 (initOnThree true) _ :=
    .served rfl rfl rfl hdispatch hd hrun hp
  rw [hp3] at hlife
  have hiff := ledger_kept_iff (by decide) hlife
  intro hkept
  exact absurd (hiff.mp hkept) (by simp [LeavesNothing, initOnThree])

/-- A socket on `3` that cannot be bound: its number is closed by `tcp_server_init` and again by
`tcp_server_destroy`. -/
theorem failed_bind_closes_twice :
    ¬ ∀ (n : Nat) (c : InitCalls) (es : List FdEvent), 1 ≤ n → Lifetime n c es →
      LedgerKept es := by
  intro hevery
  have hkept := hevery 1 (initOnThree false) _ (by decide)
    (.refused (by decide)) 3 (by decide)
  exact absurd (hkept.notAgain [.opened 3, .closed 3, .opened 3] [.closed 3] rfl) (by decide)

end TcpServer.Proof
