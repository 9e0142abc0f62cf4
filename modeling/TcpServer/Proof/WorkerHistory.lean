import TcpServer.Model.WorkerLoop

/-!
# What a worker does about what it reads

The whole history of one worker: every outcome of `ipc_fd_read` in order, and
what the loop made of it. `served_run` and `completions_run` say what that is,
as functions of the outcomes alone.

Two things fall out of it. `conn` keeps the descriptor of the last request, so a
read that fails afterwards serves it once more (`serves_exactly_iff`). And a
request whose descriptor did not arrive is dropped without the completion byte
that the parent is waiting for (`answered_iff`).
-/

namespace TcpServer.Proof

open TcpServer

/-! ## Histories -/

/-- The outcomes of `ipc_fd_read` among some calls, in order. -/
def received (ls : List WorkerCall) : List IpcRead :=
  ls.filterMap fun
    | .ipcFdRead ret => some ret
    | _ => none

/-- The descriptors on which the callback was invoked, in order. -/
def served (ls : List WorkerCall) : List Int :=
  ls.filterMap fun
    | .callback conn => some conn
    | _ => none

/-- The number of completion bytes written. -/
def completions (ls : List WorkerCall) : Nat :=
  ls.countP fun
    | .write _ => true
    | _ => false

/-- The descriptor of a request to serve, if the read delivered one. -/
def deliveredBy : IpcRead → Option Int
  | .got byte recvfd => if byte ≠ cmdStop ∧ 0 ≤ recvfd then some recvfd else none
  | _ => none

/-- The descriptors delivered by the reads that succeeded, in order. -/
def delivered (rs : List IpcRead) : List Int := rs.filterMap deliveredBy

/-- What the read leaves in `conn`. -/
def hold (conn : Int) : IpcRead → Int
  | .got _ recvfd => recvfd
  | _ => conn

/-- What the latest read that succeeded delivered; `-1` if none has, or if it was nothing. -/
def lastRecvfd (rs : List IpcRead) : Int := rs.foldl hold (-1)

/-- What the loop invokes the callback on for these outcomes, with `conn` to begin with. -/
def servedOn (conn : Int) : List IpcRead → List Int
  | [] => []
  | .eof :: rs => servedOn conn rs
  | .err :: rs => if conn < 0 then servedOn conn rs else conn :: servedOn conn rs
  | .got byte recvfd :: rs =>
      (deliveredBy (.got byte recvfd)).toList ++ servedOn recvfd rs

/-! ## The loop, call by call -/

section Loop

variable {cmd : UInt8} {p q : WorkerProc} {ls : List WorkerCall}

/-- A process that has ended calls nothing. -/
theorem gone_run (h : (WorkerProc.lts cmd).Run Lts.Any p ls q) (hgone : p.gone = true) :
    ls = [] ∧ q = p := by
  cases h with
  | nil => exact ⟨rfl, rfl⟩
  | cons _ hs _ =>
      exfalso
      cases WorkerProc.step_cases hs <;> simp_all [WorkerProc.gone]

/-- `conn` is what the reads have left in it. -/
theorem conn_run (h : (WorkerProc.lts cmd).Run Lts.Any p ls q) :
    q.conn = (received ls).foldl hold p.conn := by
  induction h with
  | nil => rfl
  | @cons p u q l ls _ hs _ ih =>
      cases WorkerProc.step_cases hs with
      | err hpc => rw [ih, WorkerProc.conn_dispatchCmd]; rfl
      | got hpc => rw [ih, WorkerProc.conn_dispatchCmd]; rfl
      | _ => exact ih

/-- A worker that has been told to stop holds no request: its `cmd` came alone, or it has not
looked at it yet. -/
def StopAlone (p : WorkerProc) : Prop := p.gone = false → p.cmd = cmdStop → p.conn < 0

theorem stopAlone_step {c : WorkerCall} (h : StopAlone p) (hs : WorkerProc.Step p c q) :
    StopAlone q := by
  cases hs with
  | eof hpc => intro hgone; simp [WorkerProc.gone] at hgone
  | err hpc =>
      intro _ hcmd
      rw [WorkerProc.conn_dispatchCmd]
      rw [WorkerProc.cmd_dispatchCmd] at hcmd
      exact h (by simp [WorkerProc.gone, hpc]) hcmd
  | got hpc =>
      intro hgone hcmd
      rw [WorkerProc.cmd_dispatchCmd] at hcmd
      rw [WorkerProc.dispatchCmd, if_pos hcmd] at hgone
      simp [WorkerProc.gone] at hgone
  | plumb hpc | callback hpc | callbackRet hpc | close hpc | report hpc =>
      intro _ hcmd
      exact h (by simp [WorkerProc.gone, hpc]) hcmd

theorem stopAlone_run (h : (WorkerProc.lts cmd).Run Lts.Any (WorkerProc.start cmd) ls p) :
    StopAlone p := by
  refine h.invariant ?_ ?_
  · intro s c t hp _ hs
    exact stopAlone_step hp (WorkerProc.step_cases hs)
  · intro _ _
    show (-1 : Int) < 0
    decide

/-- The callback that is due. -/
def due (p : WorkerProc) : List Int := if p.pc = .serving then [p.conn] else []

/-- What a read that was not end-of-file makes due. -/
theorem due_dispatchCmd (p : WorkerProc) :
    due p.dispatchCmd = if p.cmd ≠ cmdStop ∧ 0 ≤ p.conn then [p.conn] else [] := by
  unfold WorkerProc.dispatchCmd
  by_cases hcmd : p.cmd = cmdStop
  · simp [due, hcmd]
  · by_cases hconn : p.conn < 0
    · simp [due, hcmd, hconn]
    · simp [due, hcmd, hconn, Int.not_lt.mp hconn]

/-- **The callbacks are those the outcomes of `ipc_fd_read` call for.** -/
theorem served_run (h : (WorkerProc.lts cmd).Run Lts.Any p ls q) (hp : StopAlone p)
    (hq : q.pc ≠ .serving) : served ls = due p ++ servedOn p.conn (received ls) := by
  induction h with
  | nil p => simp [served, received, servedOn, due, hq]
  | @cons p u q l ls _ hs hrest ih =>
      have hstep := WorkerProc.step_cases hs
      have ih := ih (stopAlone_step hp hstep) hq
      cases hstep with
      | plumb hpc | callbackRet hpc | close hpc | report hpc =>
          simpa [served, received, due, hpc] using ih
      | callback hpc => simpa [served, received, due, hpc] using ih
      | eof hpc =>
          obtain ⟨rfl, rfl⟩ := gone_run hrest rfl
          simp [served, received, servedOn, due, hpc]
      | err hpc =>
          have hserve : served (.ipcFdRead .err :: ls) = served ls := rfl
          have hrecv : received (.ipcFdRead .err :: ls) = .err :: received ls := rfl
          rw [due_dispatchCmd, WorkerProc.conn_dispatchCmd] at ih
          have hnone : due p = [] := if_neg (by simp [hpc])
          rw [hserve, hrecv, ih, servedOn, hnone]
          by_cases hconn : p.conn < 0
          · have hnot : ¬ (p.cmd ≠ cmdStop ∧ 0 ≤ p.conn) := fun h => by omega
            rw [if_pos hconn, if_neg hnot]
          · have hcmd : p.cmd ≠ cmdStop := by
              intro hcmd
              exact hconn (hp (by simp [WorkerProc.gone, hpc]) hcmd)
            rw [if_neg hconn, if_pos ⟨hcmd, Int.not_lt.mp hconn⟩]
            rfl
      | @got byte recvfd hpc =>
          have hserve : served (.ipcFdRead (.got byte recvfd) :: ls) = served ls := rfl
          have hrecv : received (.ipcFdRead (.got byte recvfd) :: ls)
              = .got byte recvfd :: received ls := rfl
          rw [due_dispatchCmd, WorkerProc.conn_dispatchCmd] at ih
          have hnone : due p = [] := if_neg (by simp [hpc])
          rw [hserve, hrecv, ih, servedOn, hnone, deliveredBy]
          split <;> rfl

/-- The completion byte that is due for a callback already invoked. -/
def unreported (p : WorkerProc) : Nat :=
  if p.pc = .inCallback ∨ p.pc = .closing ∨ p.pc = .reporting then 1 else 0

theorem unreported_dispatchCmd (p : WorkerProc) : unreported p.dispatchCmd = 0 := by
  unfold WorkerProc.dispatchCmd
  split
  · rfl
  · split
    · simp [unreported]
    · simp [unreported]

/-- **One completion byte for each callback.** -/
theorem completions_run (h : (WorkerProc.lts cmd).Run Lts.Any p ls q) :
    completions ls + unreported q = (served ls).length + unreported p := by
  induction h with
  | nil => simp [completions, served]
  | @cons p u q l ls _ hs _ ih =>
      cases WorkerProc.step_cases hs with
      | plumb hpc | callbackRet hpc | close hpc | eof hpc =>
          simpa [completions, served, unreported, hpc] using ih
      | err hpc | got hpc =>
          rw [unreported_dispatchCmd] at ih
          simpa [completions, served, unreported, hpc] using ih
      | callback hpc =>
          simp [completions, served, unreported, hpc] at ih ⊢
          omega
      | report hpc =>
          simp [completions, served, unreported, hpc] at ih ⊢
          omega

/-- With nothing in `conn` the loop goes from a failed read straight to the next, or out. -/
theorem failed_read_quiet {c : WorkerCall}
    (h : (WorkerProc.lts cmd).Run Lts.Any p (.ipcFdRead .err :: c :: ls) q) (hconn : p.conn < 0) :
    ∃ ret, c = .ipcFdRead ret := by
  have hgo : p.dispatchCmd.pc = .reading ∨ p.dispatchCmd.pc = .stopped := by
    unfold WorkerProc.dispatchCmd
    rw [if_pos hconn]
    split
    · exact .inr rfl
    · exact .inl rfl
  cases h with
  | @cons _ u _ _ _ _ hs hrest =>
      have hs : p.step (.ipcFdRead .err) = some u := hs
      cases WorkerProc.step_cases hs with
      | err hpc =>
          cases hrest with
          | @cons _ v _ _ _ _ hs' _ =>
              have hs' : p.dispatchCmd.step c = some v := hs'
              cases c with
              | ipcFdRead ret => exact ⟨ret, rfl⟩
              | _ =>
                  exfalso
                  rcases hgo with hgo | hgo <;> simp [WorkerProc.step, hgo] at hs'

end Loop

/-! ## Serving exactly what was delivered -/

/-- No read fails while the descriptor of the latest one that succeeded is still in `conn`. -/
def NoStaleFailure (conn : Int) (rs : List IpcRead) : Prop :=
  ∀ pre post, rs = pre ++ .err :: post → pre.foldl hold conn < 0

theorem noStaleFailure_cons {conn : Int} {r : IpcRead} {rs : List IpcRead} :
    NoStaleFailure conn (r :: rs) ↔ (r = .err → conn < 0) ∧ NoStaleFailure (hold conn r) rs := by
  constructor
  · intro h
    refine ⟨?_, ?_⟩
    · intro hr
      exact h [] rs (by rw [hr]; rfl)
    · intro pre post heq
      exact h (r :: pre) post (by rw [heq]; rfl)
  · intro h pre post heq
    rcases h with ⟨hhead, htail⟩
    cases pre with
    | nil => cases heq; exact hhead rfl
    | cons r' pre => cases heq; exact htail pre post rfl

/-- Nothing that was delivered is left out. -/
theorem length_delivered_le (conn : Int) (rs : List IpcRead) :
    (delivered rs).length ≤ (servedOn conn rs).length := by
  induction rs generalizing conn with
  | nil => exact Nat.le_refl _
  | cons r rs ih =>
      cases r with
      | eof => exact ih conn
      | err =>
          have hle := ih conn
          rw [servedOn]
          split
          · exact hle
          · exact Nat.le_succ_of_le hle
      | got byte recvfd =>
          have hle := ih recvfd
          rw [delivered, List.filterMap_cons, servedOn, List.length_append]
          cases deliveredBy (.got byte recvfd) with
          | none => exact Nat.le_trans hle (Nat.le_add_left _ _)
          | some fd =>
              simp only [List.length_cons, Option.toList_some, List.length_nil]
              have hle : (rs.filterMap deliveredBy).length ≤ (servedOn recvfd rs).length := hle
              omega

/-- **A failed read that finds a descriptor in `conn` is what makes the difference.** -/
theorem servedOn_eq_delivered_iff (conn : Int) (rs : List IpcRead) :
    servedOn conn rs = delivered rs ↔ NoStaleFailure conn rs := by
  induction rs generalizing conn with
  | nil => simp [servedOn, delivered, NoStaleFailure]
  | cons r rs ih =>
      rw [noStaleFailure_cons]
      cases r with
      | eof =>
          have hdel : delivered (.eof :: rs) = delivered rs := rfl
          rw [servedOn, hdel, ih conn]
          simp [hold]
      | err =>
          have hdel : delivered (.err :: rs) = delivered rs := rfl
          rw [servedOn, hdel]
          by_cases hconn : conn < 0
          · rw [if_pos hconn]
            simpa [hold, hconn] using ih conn
          · rw [if_neg hconn]
            constructor
            · intro heq
              have hlen := length_delivered_le conn rs
              rw [← heq, List.length_cons] at hlen
              omega
            · intro h
              exact absurd (h.1 rfl) hconn
      | got byte recvfd =>
          have hdel : delivered (.got byte recvfd :: rs)
              = (deliveredBy (.got byte recvfd)).toList ++ delivered rs := by
            rw [delivered, List.filterMap_cons]
            cases deliveredBy (.got byte recvfd) <;> rfl
          rw [servedOn, hdel, List.append_cancel_left_eq, ih recvfd]
          simp [hold]

/-- What a history should look like. -/
structure ServesExactly (ls : List WorkerCall) : Prop where
  /-- Each delivered descriptor is served, once, in order, and no other. -/
  callbacks : served ls = delivered (received ls)
  /-- After a failed read the next call, if there is one, is another read. -/
  quiet : ∀ pre c post, ls = pre ++ .ipcFdRead .err :: c :: post → ∃ ret, c = .ipcFdRead ret

theorem received_append (ls ms : List WorkerCall) :
    received (ls ++ ms) = received ls ++ received ms := List.filterMap_append

/--
**The worker serves exactly the descriptors it receives, exactly if no read
fails while `conn` still holds one.**

`ls` is any history of a worker up to a point where it is waiting for its next
command or has exited; `cmd` is what its uninitialised variable held.
-/
theorem serves_exactly_iff {cmd : UInt8} {ls : List WorkerCall} {p : WorkerProc}
    (h : (WorkerProc.lts cmd).Run Lts.Any (WorkerProc.start cmd) ls p)
    (hp : p.pc = .reading ∨ p.gone = true) :
    ServesExactly ls ↔
      ∀ pre post, received ls = pre ++ .err :: post → lastRecvfd pre < 0 := by
  have hserving : p.pc ≠ .serving := by
    rcases hp with hp | hp
    · rw [hp]; decide
    · intro hpc; simp [WorkerProc.gone, hpc] at hp
  have hserved : served ls = servedOn (-1) (received ls) := by
    have hstart : StopAlone (WorkerProc.start cmd) := stopAlone_run (.nil _)
    exact served_run h hstart hserving
  have hiff : served ls = delivered (received ls) ↔ NoStaleFailure (-1) (received ls) := by
    rw [hserved]
    exact servedOn_eq_delivered_iff _ _
  constructor
  · intro hexact
    exact hiff.mp hexact.callbacks
  · intro hno
    refine ⟨hiff.mpr hno, ?_⟩
    intro pre c post heq
    subst heq
    obtain ⟨u, h1, h2⟩ := h.split
    have hconn : u.conn < 0 := by
      rw [conn_run h1]
      exact hno (received pre) (received (c :: post)) (received_append pre _)
    exact failed_read_quiet h2 hconn

/-- A worker that serves one request on descriptor 5. -/
def serveRequest : List WorkerCall :=
  [.plumb, .ipcFdRead (.got cmdConn 5), .callback 5, .callbackRet, .close 5, .write cmdDone]

/-- With a failed read before the request, and none after it. -/
theorem serves_exactly_iff_failsFirst :
    ∃ ls : List WorkerCall, .err ∈ received ls ∧ served ls = [5] ∧ ServesExactly ls := by
  obtain ⟨p, hrun, hpc⟩ : ∃ p, (WorkerProc.lts 0).Run Lts.Any (WorkerProc.start 0)
      (.plumb :: .ipcFdRead .err :: serveRequest.tail) p ∧ p.pc = .reading :=
    Lts.exists_run_of_exec (by decide +kernel)
  refine ⟨_, by decide, by decide, (serves_exactly_iff hrun (.inl hpc)).mpr ?_⟩
  intro pre post heq
  have hrecv : received (.plumb :: .ipcFdRead .err :: serveRequest.tail)
      = [.err, .got cmdConn 5] := rfl
  rw [hrecv] at heq
  match pre, heq with
  | [], _ => decide
  | [_], heq => cases heq
  | [_, _], heq => cases heq

/-- A read that fails after the request: the callback runs again on the closed descriptor. -/
theorem failed_read_serves_again :
    ¬ ∀ (cmd : UInt8) (ls : List WorkerCall) (p : WorkerProc),
      (WorkerProc.lts cmd).Run Lts.Any (WorkerProc.start cmd) ls p →
      (p.pc = .reading ∨ p.gone = true) → ServesExactly ls := by
  intro hevery
  obtain ⟨p, hrun, hpc⟩ : ∃ p, (WorkerProc.lts 0).Run Lts.Any (WorkerProc.start 0)
      (serveRequest ++
        [.ipcFdRead .err, .callback 5, .callbackRet, .close 5, .write cmdDone]) p ∧
        p.pc = .reading :=
    Lts.exists_run_of_exec (by decide +kernel)
  exact absurd (hevery 0 _ p hrun (.inl hpc)).callbacks (by decide)

/-! ## Answering every request -/

/-- What the parent sends: a connection, with its descriptor or without, or the command to stop. -/
def FromParent : IpcRead → Prop
  | .got byte _ => byte = cmdConn ∨ byte = cmdStop
  | _ => False

/-- The number of `'p'` messages consumed. -/
def requests (rs : List IpcRead) : Nat :=
  rs.countP fun
    | .got byte _ => byte = cmdConn
    | _ => false

/-- As many callbacks as requests exactly if each request came with its descriptor. -/
theorem length_servedOn_eq_iff (conn : Int) {rs : List IpcRead} (hrs : ∀ r ∈ rs, FromParent r) :
    (servedOn conn rs).length ≤ requests rs ∧
      ((servedOn conn rs).length = requests rs ↔ ∀ fd, .got cmdConn fd ∈ rs → 0 ≤ fd) := by
  induction rs generalizing conn with
  | nil => simp [servedOn, requests]
  | cons r rs ih =>
      cases r with
      | eof | err => exact absurd (hrs _ List.mem_cons_self) (by simp [FromParent])
      | got byte recvfd =>
          obtain ⟨hle, hiff⟩ := ih recvfd fun r hr => hrs r (List.mem_cons_of_mem _ hr)
          have hsplit : (∀ fd, .got cmdConn fd ∈ IpcRead.got byte recvfd :: rs → 0 ≤ fd)
              ↔ (byte = cmdConn → 0 ≤ recvfd) ∧ ∀ fd, .got cmdConn fd ∈ rs → 0 ≤ fd := by
            simp only [List.mem_cons, IpcRead.got.injEq]
            grind
          have hreq : requests (.got byte recvfd :: rs)
              = requests rs + if byte = cmdConn then 1 else 0 := by
            simp [requests, List.countP_cons]
          rw [servedOn, List.length_append, hreq, hsplit, ← hiff]
          rcases hrs _ List.mem_cons_self with rfl | rfl
          · rw [if_pos rfl]
            by_cases hfd : 0 ≤ recvfd
            · have hdel : deliveredBy (.got cmdConn recvfd) = some recvfd :=
                if_pos ⟨by decide, hfd⟩
              simp only [hdel, hfd, Option.toList_some, List.length_singleton, implies_true,
                true_and]
              omega
            · have hdel : deliveredBy (.got cmdConn recvfd) = none := if_neg fun h => hfd h.2
              simp only [hdel, hfd, Option.toList_none, List.length_nil, forall_const, false_and,
                iff_false]
              omega
          · have hdel : deliveredBy (.got cmdStop recvfd) = none := by simp [deliveredBy]
            have hne : cmdStop ≠ cmdConn := by decide
            simp only [hdel, hne, Option.toList_none, List.length_nil, if_false,
              IsEmpty.forall_iff, true_and]
            omega

/--
**Every request is answered once exactly if every request came with its
descriptor.**

`ls` is any history of a worker, up to a point where it waits for its next
command, in which every read delivered a message of the parent.
-/
theorem answered_iff {cmd : UInt8} {ls : List WorkerCall} {p : WorkerProc}
    (h : (WorkerProc.lts cmd).Run Lts.Any (WorkerProc.start cmd) ls p) (hp : p.pc = .reading)
    (hls : ∀ r ∈ received ls, FromParent r) :
    completions ls = requests (received ls) ↔ ∀ fd, .got cmdConn fd ∈ received ls → 0 ≤ fd := by
  have hserved : served ls = servedOn (-1) (received ls) :=
    served_run h (stopAlone_run (.nil _)) (by rw [hp]; decide)
  have hcompl := completions_run h
  have hnone : unreported p = 0 := by simp [unreported, hp]
  have hstart : unreported (WorkerProc.start cmd) = 0 := rfl
  obtain ⟨_, hiff⟩ := length_servedOn_eq_iff (-1) hls
  rw [← hiff, ← hserved]
  omega

theorem answered_iff_serveRequest :
    completions serveRequest = requests (received serveRequest) := by
  obtain ⟨p, hrun, hpc⟩ : ∃ p, (WorkerProc.lts 0).Run Lts.Any (WorkerProc.start 0) serveRequest p ∧
      p.pc = .reading :=
    Lts.exists_run_of_exec (by decide +kernel)
  have hrecv : received serveRequest = [.got cmdConn 5] := rfl
  refine (answered_iff hrun hpc ?_).mpr ?_
  · intro r hr
    rw [hrecv, List.mem_singleton] at hr
    subst hr
    exact .inl rfl
  · intro fd hfd
    rw [hrecv, List.mem_singleton] at hfd
    cases hfd
    decide

/-- At the descriptor limit the request comes alone, and nothing comes back. -/
theorem request_not_answered :
    ¬ ∀ (cmd : UInt8) (ls : List WorkerCall) (p : WorkerProc),
      (WorkerProc.lts cmd).Run Lts.Any (WorkerProc.start cmd) ls p → p.pc = .reading →
      (∀ r ∈ received ls, FromParent r) → completions ls = requests (received ls) := by
  intro hevery
  obtain ⟨p, hrun, hpc⟩ : ∃ p, (WorkerProc.lts 0).Run Lts.Any (WorkerProc.start 0)
      [.plumb, .ipcFdRead (.got cmdConn (-1))] p ∧ p.pc = .reading :=
    Lts.exists_run_of_exec (by decide +kernel)
  have hanswered := hevery 0 _ p hrun hpc (by
    intro r hr
    have hrecv : r ∈ [IpcRead.got cmdConn (-1)] := hr
    rw [List.mem_singleton.mp hrecv]
    exact .inl rfl)
  exact absurd hanswered (by decide)

end TcpServer.Proof
