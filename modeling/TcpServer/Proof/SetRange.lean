import TcpServer.Model.FdSets
import TcpServer.Proof.Leaks

/-!
# Descriptors beyond the set

Every descriptor the macros are given is the listening socket's or the parent's
end of a channel whose worker was forked, at the moment of the `fork`
(`dispatch_macros`); the server loop uses no others (`parent_macros`). Nothing
compares them with `FD_SETSIZE`. Below it the sets in memory are the sets of the
model (`bit_iff_mem_masterset`), and nothing else is written; from it on,
`FD_SET` writes `maxfdp` and what follows (`inRange_iff`).
-/

namespace TcpServer.Proof

open TcpServer

variable {n : Nat}

/-- What a call leaves in `sockfd[0]`, where `a` was. -/
def nextEnd (a : Nat) : DispatchCall → Nat
  | .socketpair ret => (ret.map Prod.fst).getD 0
  | .fork _ | .signal => a

/-- The end of the channel of a worker that is forked. -/
def newEnds (a : Nat) : DispatchCall → List Nat
  | .fork pid => if 0 < pid then [a] else []
  | .socketpair _ | .signal => []

/-- The ends of the channels whose workers were forked, `sockfd[0]` having been `a`. -/
def forkedEnds (a : Nat) : List DispatchCall → List Nat
  | [] => []
  | c :: cs => newEnds a c ++ forkedEnds (nextEnd a c) cs

/-! ## Dispatching -/

/-- Between `p` and `q` the descriptors `es` were entered into the set, by `ops`. -/
structure Entered (es : List Nat) (p : Dispatching n) (ops : List FdMacro) (q : Dispatching n) :
    Prop where
  macros : ops = es.map .set
  sockFd : q.self.sockFd = p.self.sockFd
  masterset : ∀ fd, fd ∈ q.self.masterset ↔ fd ∈ p.self.masterset ∨ fd ∈ es
  pipefd : ∀ i, (q.self.wp.worker i).pipefd = (p.self.wp.worker i).pipefd ∨
    (q.self.wp.worker i).pipefd ∈ es

theorem Entered.nothing {p q : Dispatching n} (h : q.self = p.self) : Entered [] p [] q := by
  refine ⟨rfl, by rw [h], by simp [h], ?_⟩
  intro i
  exact Or.inl (by rw [h])

theorem Entered.trans {es es' : List Nat} {p u q : Dispatching n} {ops ops' : List FdMacro}
    (h : Entered es p ops u) (h' : Entered es' u ops' q) :
    Entered (es ++ es') p (ops ++ ops') q where
  macros := by rw [h.macros, h'.macros, List.map_append]
  sockFd := h'.sockFd.trans h.sockFd
  masterset := by
    intro fd
    rw [h'.masterset, h.masterset, List.mem_append, or_assoc]
  pipefd := by
    intro i
    rcases h'.pipefd i with heq | hmem
    · rw [heq]
      rcases h.pipefd i with heq | hmem
      · exact Or.inl heq
      · exact Or.inr (List.mem_append_left _ hmem)
    · exact Or.inr (List.mem_append_right _ hmem)

/-- The variable `sockfd[0]` holds `a`, where it is in use. -/
def HoldsEnd (a : Nat) (p : Dispatching n) : Prop :=
  ∀ i is x b, p.pc = .forking i is x b → x = a

theorem entered_step {a : Nat} {p q : Dispatching n} {c : DispatchCall} (ha : HoldsEnd a p)
    (hs : Dispatching.Step p c q) :
    Entered (newEnds a c) p (p.fdMacros c) q ∧ HoldsEnd (nextEnd a c) q := by
  cases hs with
  | paired hpc hab _ _ =>
      refine ⟨.nothing rfl, ?_⟩
      intro j js x y hj
      cases hj
      rfl
  | unpaired hpc =>
      refine ⟨.nothing rfl, ?_⟩
      intro j js x y hj
      cases hj
      rfl
  | @parent i is a' b pid hpc hpid =>
      have haa : a' = a := ha i is a' b hpc
      subst haa
      have hends : newEnds a' (.fork pid) = [a'] := if_pos hpid
      have hmacros : p.fdMacros (.fork pid) = [.set a'] := by
        simp [Dispatching.fdMacros, hpc, WorkerPool.dispatchWorker, hpid, WorkerPool.workerFdGet]
      rw [hends, hmacros]
      refine ⟨⟨rfl, rfl, ?_, ?_⟩, ?_⟩
      · intro fd
        rw [Finset.mem_insert, List.mem_singleton, or_comm]
      · intro j
        by_cases hj : j = i
        · subst hj
          exact Or.inr (by simp)
        · exact Or.inl (by rw [Dispatching.entered_ne p a' pid hj])
      · intro j js x y hj
        cases hj
  | @routine i is a' b pid hpc hpid =>
      have hneg : ¬ 0 < pid := by omega
      have hends : newEnds a (.fork pid) = [] := if_neg hneg
      have hmacros : p.fdMacros (.fork pid) = [] := by
        simp [Dispatching.fdMacros, hpc, WorkerPool.dispatchWorker, hneg]
      rw [hends, hmacros]
      refine ⟨.nothing rfl, ?_⟩
      intro j js x y hj
      cases hj
  | signal hpc =>
      refine ⟨.nothing rfl, ?_⟩
      intro j js x y hj
      cases hj

/-- **Each worker forked enters the end of its channel, and nothing else is entered.** -/
theorem dispatch_macros {L : Listener} {fds : Descriptors (File n)} {p q : Dispatching n}
    {ds : List DispatchCall} (h : (Dispatching.lts L fds).Run Lts.Any p ds q) :
    ∀ {a : Nat}, HoldsEnd a p →
      Entered (forkedEnds a ds) p ((Dispatching.lts L fds).outputs Dispatching.fdMacros p ds)
        q := by
  induction h with
  | nil p => exact fun _ => .nothing rfl
  | cons _ hs _ ih =>
      intro a ha
      obtain ⟨hentered, hnext⟩ := entered_step ha (Dispatching.step_cases hs)
      rw [Lts.outputs_cons hs]
      exact hentered.trans (ih hnext)

/-! ## The server loop -/

theorem parent_macros_call (p : Parent n) (c : Call n) :
    ∀ op ∈ p.fdMacros c, op.fd = p.self.sockFd ∨ ∃ i, op.fd = (p.self.wp.worker i).pipefd := by
  intro op hop
  unfold Parent.fdMacros at hop
  split at hop
  · split at hop
    · split at hop
      · rw [List.mem_singleton.mp hop]
        exact Or.inl rfl
      · cases hop
    · cases hop
  · split at hop
    · split at hop
      · cases hop
      · rw [List.mem_singleton.mp hop]
        exact Or.inl rfl
    · rename_i i _ _ _ _
      rw [List.mem_singleton.mp hop]
      exact Or.inr ⟨i, rfl⟩
    · cases hop
  · split at hop
    · rename_i i _ _ _ _
      rw [List.mem_singleton.mp hop]
      exact Or.inr ⟨i, rfl⟩
    · cases hop
  · cases hop

/-- **The loop gives the macros what dispatching entered.** -/
theorem parent_macros {self : Server n} {p : Parent n} {ls : List (Call n)}
    (h : (Parent.lts self).Run Lts.Any (Parent.start self) ls p) :
    ∀ op ∈ (Parent.lts self).outputs Parent.fdMacros (Parent.start self) ls,
      op.fd = self.sockFd ∨ ∃ i, op.fd = (self.wp.worker i).pipefd := by
  refine h.outputs_forall (P := fun p => Parent.SameLayout (Parent.start self) p) ?_ (.refl _)
  intro p c q hp _ hs
  have hstep := Parent.step_cases hs
  refine ⟨hp.trans hstep.layout, ?_⟩
  intro op hop
  rcases parent_macros_call p c op hop with heq | ⟨i, heq⟩
  · exact Or.inl (heq.trans hp.sockFd)
  · exact Or.inr ⟨i, heq.trans (hp.pipefd i)⟩

/-! ## The bits -/

/-- Bit `fd` of `masterset`. -/
def bit (m : Object) (fd : Nat) : Bool := (m (Object.masterset + fd / 64)).getLsbD (fd % 64)

theorem bit_fdSet (m : Object) (fd e : Nat) :
    bit (m.fdSet fd) e = (decide (e = fd) || bit m e) := by
  unfold bit Object.fdSet
  split
  · rename_i hword
    have hlt : e % 64 < 64 := Nat.mod_lt _ (by decide)
    have hmask : (1#64 <<< (fd % 64)).getLsbD (e % 64) = decide (e = fd) := by
      rw [BitVec.getLsbD_shiftLeft, BitVec.getLsbD_one, Bool.eq_iff_iff]
      simp only [Bool.and_eq_true, Bool.not_eq_true', decide_eq_true_eq, decide_eq_false_iff_not]
      omega
    rw [BitVec.getLsbD_or, hmask, Bool.or_comm]
  · rename_i hword
    have hne : e ≠ fd := by
      rintro rfl
      exact hword rfl
    simp [hne]

theorem bit_after (m : Object) (ops : List FdMacro) (e : Nat) :
    bit (m.after ops) e = (decide (FdMacro.set e ∈ ops) || bit m e) := by
  induction ops generalizing m with
  | nil => simp [Object.after]
  | cons op ops ih =>
      cases op with
      | set fd =>
          rw [Object.after, ih, bit_fdSet, Bool.eq_iff_iff]
          simp only [Bool.or_eq_true, decide_eq_true_eq, List.mem_cons, FdMacro.set.injEq]
          tauto
      | clr fd => rw [Object.after, ih]; simp
      | isset fd => rw [Object.after, ih]; simp

theorem bit_fdZero (m : Object) {e : Nat} (he : e < fdSetsize) : bit m.fdZero e = false := by
  unfold bit Object.fdZero
  rw [if_pos]
  · simp
  · unfold Object.maxfdp
    unfold fdSetsize at he ⊢
    omega

/-- Below `FD_SETSIZE` nothing but `masterset` is written. -/
theorem after_of_lt (m : Object) {ops : List FdMacro} (h : ∀ op ∈ ops, op.fd < fdSetsize) {k : Nat}
    (hk : Object.maxfdp ≤ k) : m.after ops k = m k := by
  induction ops generalizing m with
  | nil => rfl
  | cons op ops ih =>
      have hrest : ∀ op ∈ ops, op.fd < fdSetsize := fun op hop => h op (List.mem_cons_of_mem _ hop)
      have hlt := h op List.mem_cons_self
      cases op with
      | set fd =>
          have hfd : fd < fdSetsize := hlt
          rw [Object.after, ih _ hrest]
          refine if_neg ?_
          unfold Object.maxfdp fdSetsize at *
          omega
      | clr fd => exact ih m hrest
      | isset fd => exact ih m hrest

/-! ## A server as a whole -/

section Server

variable {fd : Nat} {fds : Descriptors (File n)} {ds : List DispatchCall} {d : Dispatching n}

theorem entered_start
    (h : (Dispatching.lts (Listener.listen fd) fds).Run Lts.Any
      (Dispatching.start (Listener.listen fd) fds) ds d) :
    Entered (forkedEnds 0 ds) (Dispatching.start (Listener.listen fd) fds)
      ((Dispatching.lts (Listener.listen fd) fds).outputs Dispatching.fdMacros
        (Dispatching.start (Listener.listen fd) fds) ds) d := by
  refine dispatch_macros h ?_
  intro i is x b hpc
  cases hpc

/-- **The bits in memory are the set they stand for.** -/
theorem bit_iff_mem_masterset
    (h : (Dispatching.lts (Listener.listen fd) fds).Run Lts.Any
      (Dispatching.start (Listener.listen fd) fds) ds d) (m : Object) {e : Nat}
    (he : e < fdSetsize) :
    bit (m.fdZero.after (.set fd ::
      (Dispatching.lts (Listener.listen fd) fds).outputs Dispatching.fdMacros
        (Dispatching.start (Listener.listen fd) fds) ds)) e = true ↔ e ∈ d.self.masterset := by
  have hentered := entered_start h
  rw [hentered.macros, bit_after, bit_fdZero m he, hentered.masterset]
  simp [Dispatching.start, Listener.listen]

/-- Dispatching returns `0` if it returns. -/
theorem ne_returned_neg
    (h : (Dispatching.lts (Listener.listen fd) fds).Run Lts.Any
      (Dispatching.start (Listener.listen fd) fds) ds d) : d.pc ≠ .returned (-1) := by
  refine h.invariant (P := fun d => d.pc ≠ .returned (-1)) ?_ ?_
  · intro p c q _ _ hs
    cases Dispatching.step_cases hs with
    | signal hpc => intro hret; cases hret
    | _ => intro hret; cases hret
  · intro hret
    cases hret

end Server

/-- What a server should be like at any moment, or have reported a failure. -/
def InRange (c : InitCalls) (pc : DispatchPc n) (ops : List FdMacro) : Prop :=
  (tcpServerInit c).ret = -1 ∨ pc = .returned (-1) ∨
    ((∀ op ∈ ops, op.fd < fdSetsize) ∧
      ∀ (m : Object) (k : Nat), Object.maxfdp ≤ k → m.fdZero.after ops k = m k)

/-- The listening socket has a number below `FD_SETSIZE`, and so have the parent's ends of the
channels of all workers forked. -/
def NumbersFit (c : InitCalls) (ds : List DispatchCall) : Prop :=
  (∀ fd, c.socket = some fd → fd < fdSetsize) ∧ ∀ fd ∈ forkedEnds 0 ds, fd < fdSetsize

/-- One of the calls of `tcp_server_init` fails. -/
def InitFails (c : InitCalls) : Prop :=
  (∀ fd, c.lookup ≠ .found fd) ∨ c.socket = none ∨
    ¬ (c.setsockopt = true ∧ c.bind = true ∧ c.listen = true)

theorem initFails_iff (c : InitCalls) : InitFails c ↔ (tcpServerInit c).ret = -1 := by
  constructor
  · intro hfails
    refine (init_ret c).resolve_left ?_
    intro hret
    obtain ⟨t, fd, hlookup, hsock, hcalls, -⟩ := init_ok hret
    rcases hfails with hno | hno | hno
    · exact hno t hlookup
    · rw [hsock] at hno
      cases hno
    · exact hno hcalls
  · intro hret
    cases hlookup : c.lookup with
    | noSocket => exact Or.inl (by simp [hlookup])
    | noAddress t => exact Or.inl (by simp [hlookup])
    | found t =>
        cases hsock : c.socket with
        | none => exact Or.inr (Or.inl hsock)
        | some fd =>
            refine Or.inr (Or.inr ?_)
            intro hcalls
            rw [init_with_socket hlookup hsock, if_pos hcalls] at hret
            cases hret

/-- What a server without a failure at its start has given the macros: the socket and the ends of
the channels, at least once each, and nothing else but the zero of a worker not entered yet. -/
structure Given (c : InitCalls) (ds : List DispatchCall) (ops : List FdMacro) (fd : Nat) :
    Prop where
  socket : c.socket = some fd
  listening : .set fd ∈ ops
  ends : ∀ x ∈ forkedEnds 0 ds, .set x ∈ ops
  only : ∀ op ∈ ops, op.fd = fd ∨ op.fd = 0 ∨ op.fd ∈ forkedEnds 0 ds

theorem Given.append {c : InitCalls} {ds : List DispatchCall} {ops more : List FdMacro} {fd : Nat}
    (h : Given c ds ops fd)
    (hmore : ∀ op ∈ more, op.fd = fd ∨ op.fd = 0 ∨ op.fd ∈ forkedEnds 0 ds) :
    Given c ds (ops ++ more) fd where
  socket := h.socket
  listening := List.mem_append_left _ h.listening
  ends := fun x hx => List.mem_append_left _ (h.ends x hx)
  only := by
    intro op hop
    rcases List.mem_append.mp hop with hop | hop
    · exact h.only op hop
    · exact hmore op hop

theorem given_dispatching {c : InitCalls} {fd : Nat} {fds : Descriptors (File n)}
    {ds : List DispatchCall} {d : Dispatching n} (hret : (tcpServerInit c).ret = 0)
    (hfd : (tcpServerInit c).sockFd = fd)
    (h : (Dispatching.lts (Listener.listen fd) fds).Run Lts.Any
      (Dispatching.start (Listener.listen fd) fds) ds d) :
    Given c ds (.set fd ::
      (Dispatching.lts (Listener.listen fd) fds).outputs Dispatching.fdMacros
        (Dispatching.start (Listener.listen fd) fds) ds) fd := by
  obtain ⟨t, sock, -, hsock, -, hinit⟩ := init_ok hret
  rw [hinit] at hfd
  have hsockfd : sock = fd := Int.ofNat.inj hfd
  subst hsockfd
  rw [(entered_start h).macros]
  refine ⟨hsock, List.mem_cons_self, ?_, ?_⟩
  · intro x hx
    exact List.mem_cons_of_mem _ (List.mem_map_of_mem hx)
  · intro op hop
    rcases List.mem_cons.mp hop with rfl | hop
    · exact Or.inl rfl
    · obtain ⟨x, hx, rfl⟩ := List.mem_map.mp hop
      exact Or.inr (Or.inr hx)

theorem history_given {c : InitCalls} {ds : List DispatchCall} {pc : DispatchPc n}
    {ops : List FdMacro} (h : History n c ds pc ops) (hret : (tcpServerInit c).ret = 0) :
    pc ≠ .returned (-1) ∧ ∃ fd, Given c ds ops fd := by
  cases h with
  | refused hno => exact absurd hret hno
  | dispatching _ hfd _ hdispatch =>
      exact ⟨ne_returned_neg hdispatch, _, given_dispatching hret hfd hdispatch⟩
  | serving _ hfd _ hdispatch hd hrun =>
      have hentered := entered_start hdispatch
      refine ⟨ne_returned_neg hdispatch, _, (given_dispatching hret hfd hdispatch).append ?_⟩
      intro op hop
      rcases parent_macros hrun op hop with heq | ⟨i, heq⟩
      · exact Or.inl (heq.trans hentered.sockFd)
      · rw [heq]
        rcases hentered.pipefd i with hzero | hmem
        · exact Or.inr (Or.inl hzero)
        · exact Or.inr (Or.inr hmem)

theorem ops_iff {c : InitCalls} {ds : List DispatchCall} {ops : List FdMacro} {fd : Nat}
    (h : Given c ds ops fd) : (∀ op ∈ ops, op.fd < fdSetsize) ↔ NumbersFit c ds := by
  constructor
  · intro hops
    refine ⟨?_, fun x hx => hops _ (h.ends x hx)⟩
    intro x hx
    rw [h.socket] at hx
    cases hx
    exact hops _ h.listening
  · rintro ⟨hsock, hends⟩ op hop
    rcases h.only op hop with heq | heq | hmem
    · rw [heq]
      exact hsock fd h.socket
    · rw [heq]
      decide
    · exact hends _ hmem

/-- With a socket that listens, being in range is a matter of the numbers. -/
theorem numbersFit_of_inRange {c : InitCalls} {ds : List DispatchCall} {pc : DispatchPc n}
    {ops : List FdMacro} (h : History n c ds pc ops) (hret : (tcpServerInit c).ret = 0)
    (hin : InRange c pc ops) : NumbersFit c ds := by
  obtain ⟨hpc, fd, hgiven⟩ := history_given h hret
  rcases hin with hneg | hneg | ⟨hops, -⟩
  · rw [hret] at hneg
    cases hneg
  · exact absurd hneg hpc
  · exact (ops_iff hgiven).mp hops

/-- What is in range writes nothing but `masterset`. -/
theorem inRange_of_ops {c : InitCalls} {pc : DispatchPc n} {ops : List FdMacro}
    (h : ∀ op ∈ ops, op.fd < fdSetsize) : InRange c pc ops := by
  refine Or.inr (Or.inr ⟨h, ?_⟩)
  intro m k hk
  rw [after_of_lt _ h hk]
  exact if_neg (by omega)

/--
**The macros stay in range exactly if the numbers do**, or there is no server.

The numbers are the operating system's, and nobody looks at them.
-/
theorem inRange_iff {c : InitCalls} {ds : List DispatchCall} {pc : DispatchPc n}
    {ops : List FdMacro} (h : History n c ds pc ops) :
    InRange c pc ops ↔ InitFails c ∨ NumbersFit c ds := by
  rcases init_ret c with hret | hret
  · constructor
    · intro hin
      exact Or.inr (numbersFit_of_inRange h hret hin)
    · rintro (hfails | hfit)
      · exact Or.inl ((initFails_iff c).mp hfails)
      · obtain ⟨-, fd, hgiven⟩ := history_given h hret
        exact inRange_of_ops ((ops_iff hgiven).mpr hfit)
  · exact iff_of_true (Or.inl hret) (Or.inl ((initFails_iff c).mpr hret))

/-- One worker on `4` and `5` after the socket on `3`; the server loop looks for a connection. -/
theorem inRange_oneWorker :
    InRange (n := 1) (initOnThree true) (.returned 0) [.set 3, .set 4, .isset 3] := by
  obtain ⟨d, hdispatch, hd, hmacros, p, hp, hloop⟩ : ∃ d : Dispatching 1,
      (Dispatching.lts (Listener.listen 3) (usualTable 1)).Run Lts.Any
        (Dispatching.start (Listener.listen 3) (usualTable 1))
        [.socketpair (some (4, 5)), .fork 7, .signal] d ∧ d.pc = .returned 0 ∧
      (Dispatching.lts (Listener.listen 3) (usualTable 1)).outputs Dispatching.fdMacros
        (Dispatching.start (Listener.listen 3) (usualTable 1))
        [.socketpair (some (4, 5)), .fork 7, .signal] = [.set 4] ∧
      ∃ p ∈ (Parent.lts d.self).exec Lts.Any (Parent.start d.self)
        [.tau, .select, .selectRet none, .tau],
        (Parent.lts d.self).outputs Parent.fdMacros (Parent.start d.self)
          [.tau, .select, .selectRet none, .tau] = [.isset 3] :=
    Lts.exists_run_of_exec (by decide +kernel)
  have hhistory := History.serving (c := initOnThree true) rfl rfl rfl hdispatch hd
    (Lts.run_of_exec hp)
  rw [hd, hmacros, hloop] at hhistory
  exact (inRange_iff hhistory).mpr (Or.inr ⟨by decide, by decide⟩)

/-- The table of a process that holds all numbers below `1024`, the listening socket's among
them. -/
def crowdedTable : Descriptors (File 1) where
  get k := if k = 3 then some .listening else if k < 1024 then some (.app k) else none
  bound := 1024
  get_of_le := by
    intro k hk
    rw [if_neg (by omega), if_neg (by omega)]

/-- There the channel gets the next two numbers, and a bit of `maxfdp` is set. -/
theorem channel_beyond_set :
    ¬ ∀ (n : Nat) (c : InitCalls) (ds : List DispatchCall) (pc : DispatchPc n)
      (ops : List FdMacro), History n c ds pc ops → InRange c pc ops := by
  intro hevery
  obtain ⟨d, hdispatch, -⟩ : ∃ d : Dispatching 1,
      (Dispatching.lts (Listener.listen 3) crowdedTable).Run Lts.Any
        (Dispatching.start (Listener.listen 3) crowdedTable)
        [.socketpair (some (1024, 1025)), .fork 7] d ∧ True :=
    Lts.exists_run_of_exec (by decide +kernel)
  have hhistory := History.dispatching (c := initOnThree true) rfl rfl rfl hdispatch
  have hfit := numbersFit_of_inRange hhistory rfl (hevery _ _ _ _ _ hhistory)
  exact absurd (hfit.2 1024 (by decide)) (by decide)

example : Object.after (Object.fdZero fun _ => 0) [.set 3, .set 1024] Object.maxfdp = 1 := by
  decide

end TcpServer.Proof
