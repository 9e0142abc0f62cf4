import TcpServer.Proof.Dispatching
import TcpServer.Proof.Plumbing
import TcpServer.Proof.Served
import TcpServer.Proof.Example

/-!
# From the command line to the clients

The example puts the pieces together: its options, `tcp_server_init`,
`tcp_server_dispatch`, `tcp_server_run`. With numbers handed out lowest first the
listening socket's is below all that are handed out later, so the channels are
numbered above it (`Above`), and `select` looks at all of them but the last.

Of one channel that leaves none. So the example serves everyone who connects
unless it is asked for one worker (`serves_everyone_asked_iff`).
-/

namespace TcpServer.Proof

open TcpServer CString

variable {n : Nat}

/-! ## The numbers of the channels -/

/-- Numbers are handed out lowest first, and the process is the one that called. -/
def Launching (p : Dispatching n) (c : DispatchCall) : Prop := LowestFirst p c ∧ ParentSide p c

instance (p : Dispatching n) (c : DispatchCall) : Decidable (Launching p c) :=
  inferInstanceAs (Decidable (_ ∧ _))

theorem Launching.not_fails {p : Dispatching n} {c : DispatchCall} (h : Launching p c) :
    ¬ c.Fails := by
  obtain ⟨hlow, -⟩ := h
  cases c with
  | socketpair ret =>
      rintro rfl
      exact hlow
  | fork pid =>
      intro hneg
      exact absurd hneg (Int.not_lt.mpr hlow)
  | signal => exact id

theorem run_not_fails {self : Listener} {fds : Descriptors (File n)} {p q : Dispatching n}
    {ds : List DispatchCall} (h : (Dispatching.lts self fds).Run Launching p ds q) :
    ∀ c ∈ ds, ¬ c.Fails := by
  induction h with
  | nil => simp
  | cons hok _ _ ih =>
      intro c hc
      rcases List.mem_cons.mp hc with rfl | hc
      · exact hok.not_fails
      · exact ih c hc

/-- No number up to `sock` is free, and no channel has one of them. -/
structure Above (sock : Nat) (p : Dispatching n) : Prop where
  used : ∀ fd ≤ sock, p.fds.get fd ≠ none
  pair : ∀ i is a b, p.pc = .forking i is a b → sock < a ∧ sock < b
  pipes : ∀ i, i ∉ remaining p.pc → sock < (p.self.wp.worker i).pipefd

theorem lt_of_free {φ : Type} {fds : Descriptors φ} {sock fd : Nat}
    (h : ∀ k ≤ sock, fds.get k ≠ none) (hfree : fds.get fd = none) : sock < fd := by
  by_contra hle
  exact h fd (Nat.le_of_not_lt hle) hfree

theorem above_start {fds : Descriptors (File n)} :
    Above fds.lowestFree
      (Dispatching.start (Listener.listen fds.lowestFree)
        (fds.install fds.lowestFree .listening)) where
  used := by
    intro fd hle
    show (fds.install fds.lowestFree .listening).get fd ≠ none
    by_cases hfd : fd = fds.lowestFree
    · rw [hfd, Descriptors.get_install_self]
      simp
    · rw [Descriptors.get_install_ne _ _ hfd]
      intro hfree
      have hlow : fds.lowestFree ≤ fd := Descriptors.lowestFreeFrom_le (Nat.zero_le _) hfree
      omega
  pair := by intro i is a b h; cases h
  pipes := by intro i hi; exact absurd (List.mem_finRange i) hi

theorem above_step {sock : Nat} {p q : Dispatching n} {c : DispatchCall} (h : Above sock p)
    (hok : Launching p c) (hs : Dispatching.Step p c q) : Above sock q := by
  have hpipes := h.pipes
  cases hs with
  | @paired i is a b hpc hab ha hb =>
      have hlta := lt_of_free h.used ha
      have hltb := lt_of_free h.used hb
      rw [hpc] at hpipes
      refine ⟨?_, ?_, hpipes⟩
      · intro fd hle
        rw [Descriptors.get_install_ne _ _ (by omega), Descriptors.get_install_ne _ _ (by omega)]
        exact h.used fd hle
      · intro j js a' b' hj
        cases hj
        exact ⟨hlta, hltb⟩
  | unpaired hpc => exact absurd rfl hok.not_fails
  | @parent i is a b pid hpc hpid =>
      obtain ⟨hlta, hltb⟩ := h.pair i is a b hpc
      rw [hpc] at hpipes
      refine ⟨?_, (by intro _ _ _ _ hj; cases hj), ?_⟩
      · intro fd hle
        rw [Descriptors.get_close_ne _ (by omega)]
        exact h.used fd hle
      · intro j hj
        show sock < ((p.entered i a pid).worker j).pipefd
        by_cases hji : j = i
        · rw [hji, Dispatching.entered_pipefd_self]
          exact hlta
        · rw [Dispatching.entered_ne p a pid hji]
          refine hpipes j ?_
          intro hmem
          rcases List.mem_cons.mp hmem with heq | hmem
          · exact hji heq
          · exact hj hmem
  | routine hpc hpid => exact absurd hpid (forked hok.2 hok.not_fails)
  | signal hpc =>
      rw [hpc] at hpipes
      exact ⟨h.used, (by intro _ _ _ _ hj; cases hj), hpipes⟩

/-- **What the dispatching of a server leaves is a server with the channels numbered above its
socket.** -/
theorem numbering_of_run {fds : Descriptors (File n)} {ds : List DispatchCall} {d : Dispatching n}
    (h : (Dispatching.lts (Listener.listen fds.lowestFree)
        (fds.install fds.lowestFree .listening)).Run Launching
      (Dispatching.start (Listener.listen fds.lowestFree)
        (fds.install fds.lowestFree .listening)) ds d) (hd : d.pc = .returned 0) :
    ∃ c : Numbering n, c.server = d.self ∧ c.sockFd = fds.lowestFree ∧
      ∀ i, c.sockFd < c.pipe i := by
  have hparent := h.mono fun _ _ hok => hok.2
  have hwired := wired_run hparent (run_not_fails h)
  have habove : Above fds.lowestFree d :=
    h.invariant (fun hp hok hs => above_step hp hok (Dispatching.step_cases hs)) above_start
  obtain ⟨sp, hpid, hself⟩ := dispatch_refines hparent (run_not_fails h) hd
  obtain ⟨self', hloop, hdispatched⟩ := Server.dispatchLoop_spec hpid (List.finRange n)
    { Listener.listen fds.lowestFree with wp := WorkerPool.new n } (List.nodup_finRange n)
  obtain rfl : self' = d.self := by
    rw [Server.dispatch, hloop] at hself
    exact Option.some.inj hself
  have hdone : ∀ i : Fin n, i ∉ remaining d.pc := by
    intro i
    rw [hd]
    exact List.not_mem_nil
  have hpipe : ∀ i, (d.self.wp.worker i).pipefd = (sp i).sockfd0 := by
    intro i
    rw [hdispatched.worker i (List.mem_finRange i)]
  have hlt : ∀ i, fds.lowestFree < (sp i).sockfd0 := by
    intro i
    rw [← hpipe]
    exact habove.pipes i (hdone i)
  refine ⟨⟨fds.lowestFree, sp, hpid, ?_, fun i => Nat.ne_of_gt (hlt i)⟩, ?_, rfl, hlt⟩
  · intro i j hij
    have hi := hwired.pipes i (hdone i)
    rw [hpipe, hij, ← hpipe, hwired.pipes j (hdone j)] at hi
    cases hi
    rfl
  · exact Option.get_of_eq_some _ hself

/-! ## One worker is not enough -/

/-- With the channels above the socket, `select` looks at none exactly if there is only one. -/
theorem serves_everyone_above {c : Numbering n} (habove : ∀ i, c.sockFd < c.pipe i) (hn : 0 < n) :
    ServesEveryone c ↔ n ≠ 1 := by
  constructor
  · rintro hserves rfl
    refine not_serves_everyone ?_ hserves
    intro i hlt
    rcases (c.lt_maxfdp _).mp hlt with hle | ⟨j, hj⟩
    · exact Nat.not_le.mpr (habove i) hle
    · rw [Subsingleton.elim i j] at hj
      exact Nat.lt_irrefl _ hj
  · intro hone
    exact serves_everyone_of_two c (by omega)

/-- The number of workers is what was asked for if that was one. -/
theorem Asked.workers_eq_one {calls : List (Int × Str)} {p : ServerParams} (h : Asked calls p) :
    p.workersN.toNat = 1 ↔ numberAsked workersKey calls = 1 := by
  have hpos := h.workers_pos
  have hworkers := h.workers
  have hnat : (p.workersN.toNat : Int) = p.workersN.toInt := by
    rw [BitVec.toInt_eq_toNat_cond] at hpos ⊢
    split at hpos <;> omega
  constructor
  · intro hone
    split at hworkers <;> omega
  · intro hone
    rw [hone, if_pos Int.one_pos] at hworkers
    omega

/--
**From the command line to starvation freedom.** Started with its standard
streams open, numbers handed out lowest first and every call going through, the
example serves everyone who connects exactly if it is not asked for one worker.

`fds` is the table when `tcp_server_init` makes the listening socket.
-/
theorem serves_everyone_asked_iff {m : Machine} {calls : List (Int × Str)} {p : ServerParams}
    {fds : Descriptors (File p.workersN.toNat)} {ds : List DispatchCall}
    {d : Dispatching p.workersN.toNat} (h : exampleMain m calls = .serving p)
    (hstreams : ∀ fd ≤ stderrFileno, fds.get fd ≠ none) (hsocket : m.socket = some fds.lowestFree)
    (hrun : (Dispatching.lts (Listener.listen fds.lowestFree)
        (fds.install fds.lowestFree .listening)).Run Launching
      (Dispatching.start (Listener.listen fds.lowestFree)
        (fds.install fds.lowestFree .listening)) ds d) (hd : d.pc = .returned 0) :
    ∃ c : Numbering p.workersN.toNat,
      c.server = d.self ∧ (tcpServerInit (m.calls p.serverIface)).sockFd = c.sockFd ∧
        stderrFileno < c.sockFd ∧ (∀ i, c.sockFd < c.pipe i) ∧
          (ServesEveryone c ↔ numberAsked workersKey calls ≠ 1) := by
  obtain ⟨-, hasked, -, hgoes⟩ := serving_iff.mp h
  obtain ⟨c, hserver, hsock, habove⟩ := numbering_of_run hrun hd
  have hinit : (tcpServerInit (m.calls p.serverIface)).sockFd = fds.lowestFree := by
    obtain ⟨t, fd, -, hfd, -, heq⟩ := init_ok (init_goes hgoes 0).1
    have hfd' : m.socket = some fd := hfd
    rw [hsocket] at hfd'
    rw [heq, ← Option.some.inj hfd']
  have hpos : 0 < p.workersN.toNat := by
    have hworkers := hasked.workers_pos
    rw [BitVec.toInt_eq_toNat_cond] at hworkers
    split at hworkers <;> omega
  refine ⟨c, hserver, hsock ▸ hinit, ?_, habove, ?_⟩
  · rw [hsock]
    exact lt_of_free hstreams (Descriptors.get_lowestFreeFrom fds 0)
  · rw [serves_everyone_above habove hpos, ne_eq, hasked.workers_eq_one]

def oneAsked : Str := ⟨['1'], by decide⟩

/-- The arguments of a server with one worker on the default port. -/
def oneWorkerParams : ServerParams := ⟨tcpServerDfltIface, 9080, 1⟩

theorem serving_oneWorker :
    exampleMain loopbackMachine [(workersKey, oneAsked)] = .serving oneWorkerParams := by
  refine serving_iff.mpr ⟨by decide, ⟨rfl, by decide, by decide⟩, ?_, goes_loopback⟩
  exact ⟨by decide, by decide⟩

/-- The table of a process with its standard streams, before it serves with those arguments. -/
def oneWorkerTable : Descriptors (File oneWorkerParams.workersN.toNat) := standardStreams _

/-- `-w 1`. -/
theorem serves_everyone_asked_oneWorker :
    ∃ c : Numbering 1, c.sockFd = 3 ∧ ¬ ServesEveryone c := by
  obtain ⟨d, hrun, hd⟩ : ∃ d : Dispatching oneWorkerParams.workersN.toNat,
      (Dispatching.lts (Listener.listen oneWorkerTable.lowestFree)
        (oneWorkerTable.install oneWorkerTable.lowestFree .listening)).Run Launching
        (Dispatching.start (Listener.listen oneWorkerTable.lowestFree)
          (oneWorkerTable.install oneWorkerTable.lowestFree .listening))
        [.socketpair (some (4, 5)), .fork 7, .signal] d ∧ d.pc = .returned 0 :=
    Lts.exists_run_of_exec (by decide +kernel)
  obtain ⟨c, -, hinit, -, -, hserves⟩ := serves_everyone_asked_iff serving_oneWorker
    (by decide) (by decide +kernel) hrun hd
  have hsock : (3 : Int) = c.sockFd := hinit
  exact ⟨c, by omega, fun hall => hserves.mp hall (by decide)⟩

end TcpServer.Proof
