import TcpServer.Model.Stdout
import TcpServer.Proof.Dispatching

/-!
# How often a log line is written

A line that is in the parent's buffer when a worker is forked is in both
buffers afterwards, and each of them is written once. Until
`tcp_server_dispatch` returns, every line the parent has logged is in its
buffer. So the number of copies, in the file and in all buffers, is one more
than the number of workers forked after the line was logged (`Copied`), and in
the end they are all in the file (`count_output`).

One line is logged before the first `fork`, by `worker_pool_new`.
-/

namespace TcpServer.Proof

open TcpServer

variable {n : Nat}

/-- The copies of a line, written or not. -/
def copies (s : Stdout n) (x : LogLine n) : Nat :=
  s.output.count x + ∑ who, (s.stdio who).buffer.count x

/-- What logging and forking keep. -/
structure Copied (s : Stdout n) : Prop where
  nodup : (remaining s.parent.pc).Nodup
  forks : s.forks + (remaining s.parent.pc).length = n
  /-- No worker exists before it is forked. -/
  absent : ∀ i ∈ remaining s.parent.pc, s.stdio (some i) = .absent
  numbered : ∀ x ∈ s.lines, x.nr < s.lines.length
  logged : ∀ x, x ∉ s.lines → copies s x = 0
  /-- The parent has its own lines until the last worker is forked. -/
  kept : s.parent.pc ≠ .returned 0 →
    ∀ x ∈ s.lines, x.author = none → (s.stdio none).buffer.count x = 1
  copies : ∀ x ∈ s.lines, x.author = none → copies s x + x.forks = 1 + s.forks
  /-- `worker_pool_new` logs its line before the first `fork`. -/
  first : if s.pool then ∃ x ∈ s.lines, x.author = none ∧ x.forks = 0 else s.forks = 0

theorem copied_start (self : Listener) (fds : Descriptors (File n)) :
    Copied (Stdout.start self fds) where
  nodup := List.nodup_finRange n
  forks := by simp [Stdout.start, Dispatching.start, remaining]
  absent := by intro i _; rfl
  numbered := by intro x hx; cases hx
  logged := by intro x _; simp [copies, Stdout.start]
  kept := by intro _ x hx; cases hx
  copies := by intro x hx; cases hx
  first := rfl

/-! ## The copies after a step -/

section Step

variable {s : Stdout n} {who : Process n} {buffer : List (LogLine n)}

/-- What changing one buffer does to the sum. -/
theorem sum_buffers (s : Stdout n) (who : Process n) (io : Stdio n) (x : LogLine n) :
    ∑ p, (Function.update s.stdio who io p).buffer.count x + (s.stdio who).buffer.count x
      = ∑ p, (s.stdio p).buffer.count x + io.buffer.count x :=
  PointUpdate.sum_comp_update (fun io : Stdio n => io.buffer.count x) s.stdio who io

theorem copies_logMsg (hio : s.stdio who = .running buffer) (x : LogLine n) :
    copies (s.logMsg who buffer) x = copies s x + if x = s.nextLine who then 1 else 0 := by
  have hsum := sum_buffers s who (.running (buffer ++ [s.nextLine who])) x
  have hone : [s.nextLine who].count x = if x = s.nextLine who then 1 else 0 := by
    split
    · rename_i heq
      rw [heq, List.count_singleton_self]
    · rename_i hne
      exact List.count_eq_zero_of_not_mem fun hmem => hne (List.mem_singleton.mp hmem)
  rw [hio, Stdio.buffer_running, Stdio.buffer_running, List.count_append, hone] at hsum
  show s.output.count x + ∑ p, (Function.update s.stdio who _ p).buffer.count x = _
  unfold copies
  omega

/-- Writing part of a buffer, or all of it, moves copies. -/
theorem copies_written (hio : s.stdio who = .running buffer) {io : Stdio n}
    {out : List (LogLine n)} (x : LogLine n)
    (hmove : io.buffer.count x + out.count x = buffer.count x) :
    copies (s.write who io out) x = copies s x := by
  have hsum := sum_buffers s who io x
  rw [hio, Stdio.buffer_running] at hsum
  show (s.output ++ out).count x + ∑ p, (Function.update s.stdio who io p).buffer.count x = _
  rw [List.count_append]
  unfold copies
  omega

/-- A worker that is forked brings a second copy of what the parent holds. -/
theorem copies_forkWorker {i : Fin n} (habsent : s.stdio (some i) = .absent)
    (parent : Dispatching n) (buffer : List (LogLine n)) (x : LogLine n) :
    copies (s.forkWorker parent i buffer) x = copies s x + buffer.count x := by
  have hsum := sum_buffers s (some i) (.running buffer) x
  rw [habsent, Stdio.buffer_absent, Stdio.buffer_running, List.count_nil] at hsum
  show s.output.count x
    + ∑ p, (Function.update s.stdio (some i) (.running buffer) p).buffer.count x = _
  unfold copies
  omega

/-! ## The invariant -/

theorem nextLine_notMem (h : Copied s) (who : Process n) : s.nextLine who ∉ s.lines := by
  intro hmem
  exact Nat.lt_irrefl _ (h.numbered _ hmem)

theorem count_buffer_le (s : Stdout n) (who : Process n) (x : LogLine n) :
    (s.stdio who).buffer.count x ≤ copies s x := by
  have hle := Finset.single_le_sum (f := fun p => (s.stdio p).buffer.count x)
    (fun _ _ => Nat.zero_le _) (Finset.mem_univ who)
  unfold copies
  omega

/-- What one process does to its buffer is not seen by those that do not run. -/
theorem absent_update (h : Copied s) (hio : s.stdio who = .running buffer) (io : Stdio n)
    {i : Fin n} (hi : i ∈ remaining s.parent.pc) :
    Function.update s.stdio who io (some i) = .absent := by
  have habsent := h.absent i hi
  rw [Function.update_of_ne]
  · exact habsent
  · rintro rfl
    rw [hio] at habsent
    cases habsent

/-- A line that the parent logs is in its buffer with the others. -/
theorem kept_logMsg (h : Copied s) (hio : s.stdio who = .running buffer)
    (hpc : s.parent.pc ≠ .returned 0) {x : LogLine n} (hx : x ∈ s.lines ++ [s.nextLine who])
    (hauthor : x.author = none) : ((s.logMsg who buffer).stdio none).buffer.count x = 1 := by
  have hnew := h.logged _ (nextLine_notMem h who)
  cases who with
  | none =>
      have hbuffer : ((s.logMsg none buffer).stdio none).buffer = buffer ++ [s.nextLine none] := by
        simp [Stdout.logMsg]
      have hle := count_buffer_le s none (s.nextLine none)
      rw [hio, Stdio.buffer_running, hnew] at hle
      rw [hbuffer, List.count_append]
      rcases List.mem_append.mp hx with hx | hx
      · have hone := h.kept hpc x hx hauthor
        have hne : x ∉ [s.nextLine none] := by
          intro hmem
          rw [List.mem_singleton.mp hmem] at hx
          exact nextLine_notMem h none hx
        rw [hio, Stdio.buffer_running] at hone
        rw [hone, List.count_eq_zero_of_not_mem hne]
      · rw [List.mem_singleton.mp hx, List.count_singleton_self]
        omega
  | some i =>
      have hbuffer : (s.logMsg (some i) buffer).stdio none = s.stdio none := by
        simp [Stdout.logMsg]
      rw [hbuffer]
      rcases List.mem_append.mp hx with hx | hx
      · exact h.kept hpc x hx hauthor
      · rw [List.mem_singleton.mp hx] at hauthor
        cases hauthor

theorem copied_logMsg (h : Copied s) (hio : s.stdio who = .running buffer) :
    Copied (s.logMsg who buffer) where
  nodup := h.nodup
  forks := h.forks
  absent := fun _ hi => absent_update h hio _ hi
  numbered := by
    intro x hx
    show x.nr < (s.lines ++ [s.nextLine who]).length
    rw [List.length_append, List.length_singleton]
    rcases List.mem_append.mp hx with hx | hx
    · exact Nat.lt_succ_of_lt (h.numbered x hx)
    · rw [List.mem_singleton.mp hx]
      exact Nat.lt_succ_self _
  logged := by
    intro x hx
    rw [copies_logMsg hio]
    have hx : x ∉ s.lines ++ [s.nextLine who] := hx
    rw [List.mem_append, List.mem_singleton, not_or] at hx
    rw [if_neg hx.2, h.logged x hx.1]
  kept := fun hpc _ hx hauthor => kept_logMsg h hio hpc hx hauthor
  copies := by
    intro x hx hauthor
    rw [copies_logMsg hio]
    rcases List.mem_append.mp hx with hx | hx
    · have hne : x ≠ s.nextLine who := by
        rintro rfl
        exact nextLine_notMem h who hx
      rw [if_neg hne]
      exact h.copies x hx hauthor
    · have heq := List.mem_singleton.mp hx
      subst heq
      rw [if_pos rfl, h.logged _ (nextLine_notMem h who)]
      exact Nat.zero_add _ ▸ rfl
  first := by
    have hfirst := h.first
    show if s.pool then ∃ x ∈ s.lines ++ [s.nextLine who], x.author = none ∧ x.forks = 0 else _
    split at hfirst
    · rename_i hpool
      obtain ⟨x, hx, hx'⟩ := hfirst
      rw [if_pos hpool]
      exact ⟨x, List.mem_append_left _ hx, hx'⟩
    · rename_i hpool
      rw [if_neg hpool]
      exact hfirst

/-- Writing lines changes no number of copies. -/
theorem copied_write (h : Copied s) (hio : s.stdio who = .running buffer)
    (hheld : ¬ s.Held who) {io : Stdio n} {out : List (LogLine n)}
    (hmove : ∀ x, io.buffer.count x + out.count x = buffer.count x) :
    Copied (s.write who io out) where
  nodup := h.nodup
  forks := h.forks
  absent := fun _ hi => absent_update h hio io hi
  numbered := h.numbered
  logged := by
    intro x hx
    rw [copies_written hio x (hmove x)]
    exact h.logged x hx
  kept := by
    intro hpc x hx hauthor
    have hne : none ≠ who := fun heq => hheld ⟨heq.symm, hpc⟩
    show (Function.update s.stdio who io none).buffer.count x = 1
    rw [Function.update_of_ne hne]
    exact h.kept hpc x hx hauthor
  copies := by
    intro x hx hauthor
    rw [copies_written hio x (hmove x)]
    exact h.copies x hx hauthor
  first := h.first

/-- **A `fork` makes one copy more of every line the parent has logged.** -/
theorem copied_forkWorker (h : Copied s) {parent : Dispatching n} {i : Fin n} {is : List (Fin n)}
    {a b : Nat} (hpool : s.pool = true) (hio : s.stdio none = .running buffer)
    (hpc : s.parent.pc = .forking i is a b) (hnext : parent.pc = .looping is) :
    Copied (s.forkWorker parent i buffer) := by
  have hnodup := h.nodup
  have hforks := h.forks
  have habsent := h.absent
  have hfirst := h.first
  have hkept : ∀ x ∈ s.lines, x.author = none → (s.stdio none).buffer.count x = 1 :=
    h.kept (by rw [hpc]; simp)
  rw [hpc] at hnodup hforks habsent
  rw [if_pos hpool] at hfirst
  have hcopies := copies_forkWorker (habsent i List.mem_cons_self) parent buffer
  refine ⟨?_, ?_, ?_, h.numbered, ?_, ?_, ?_, ?_⟩
  · show (remaining parent.pc).Nodup
    rw [hnext]
    exact (List.nodup_cons.mp hnodup).2
  · show s.forks + 1 + (remaining parent.pc).length = n
    rw [hnext]
    simp only [remaining, List.length_cons] at hforks ⊢
    omega
  · intro j hj
    have hj : j ∈ remaining parent.pc := hj
    rw [hnext] at hj
    have hne : some j ≠ some i := by
      intro heq
      cases heq
      exact (List.nodup_cons.mp hnodup).1 hj
    show Function.update s.stdio (some i) _ (some j) = _
    rw [Function.update_of_ne hne]
    exact habsent j (List.mem_cons_of_mem _ hj)
  · intro x hx
    have hnone := h.logged x hx
    have hle := count_buffer_le s none x
    rw [hio, Stdio.buffer_running] at hle
    rw [hcopies]
    omega
  · intro _ x hx hauthor
    have hbuffer : (s.forkWorker parent i buffer).stdio none = s.stdio none := by
      simp [Stdout.forkWorker]
    rw [hbuffer]
    exact hkept x hx hauthor
  · intro x hx hauthor
    have hone := hkept x hx hauthor
    have hbefore := h.copies x hx hauthor
    rw [hio, Stdio.buffer_running] at hone
    rw [hcopies, hone]
    show _ = 1 + (s.forks + 1)
    omega
  · show if s.pool then _ else _
    rw [if_pos hpool]
    exact hfirst

/-- Another call of `tcp_server_dispatch` neither forks nor logs. -/
theorem copied_call (h : Copied s) {c : DispatchCall} {parent : Dispatching n}
    (hno : ∀ pid, c ≠ .fork pid) (hstep : Dispatching.Step s.parent c parent) :
    Copied { s with parent := parent } := by
  have hsame : remaining parent.pc = remaining s.parent.pc ∧ s.parent.pc ≠ .returned 0 := by
    cases hstep with
    | paired hpc | unpaired hpc | signal hpc =>
        rw [hpc]
        exact ⟨rfl, by simp⟩
    | parent | routine => exact absurd rfl (hno _)
  refine ⟨?_, ?_, ?_, h.numbered, h.logged, fun _ => h.kept hsame.2, h.copies, h.first⟩
  · exact hsame.1 ▸ h.nodup
  · exact hsame.1 ▸ h.forks
  · exact hsame.1 ▸ h.absent

/-- The line of `worker_pool_new` comes before any `fork`. -/
theorem copied_poolNew (h : Copied s) (hpool : s.pool = false)
    (hio : s.stdio none = .running buffer) :
    Copied { s.logMsg none buffer with pool := true } := by
  have hlogged := copied_logMsg h hio
  have hforks := h.first
  rw [hpool, if_neg (by decide)] at hforks
  refine ⟨hlogged.nodup, hlogged.forks, hlogged.absent, hlogged.numbered, hlogged.logged,
    hlogged.kept, hlogged.copies, ?_⟩
  exact ⟨s.nextLine none, List.mem_append_right _ List.mem_cons_self, rfl, hforks⟩

theorem copied_step {t : Stdout n} {a : LogAction n} (h : Copied s) (hs : Stdout.Step s a t) :
    Copied t := by
  cases hs with
  | log hio => exact copied_logMsg h hio
  | poolNew hpool hio => exact copied_poolNew h hpool hio
  | call _ hno hstep => exact copied_call h hno hstep
  | fork hpool hio hpc hnext => exact copied_forkWorker h hpool hio hpc hnext
  | spill hio hheld =>
      refine copied_write h hio hheld ?_
      intro x
      rw [Stdio.buffer_running, Nat.add_comm, ← List.count_append, List.take_append_drop]
  | exit hio hheld =>
      refine copied_write h hio hheld ?_
      intro x
      rw [Stdio.buffer_exited, List.count_nil, Nat.zero_add]

end Step

theorem copied_run {self : Listener} {fds : Descriptors (File n)} {s : Stdout n}
    {as : List (LogAction n)} (h : (Stdout.lts self fds).Run Lts.Any (Stdout.start self fds) as s) :
    Copied s := by
  refine h.invariant ?_ (copied_start self fds)
  intro s a t hs _ hstep
  exact copied_step hs (Stdout.step_cases hstep)

/-! ## In the end -/

/-- All processes have exited. -/
def Finished (s : Stdout n) : Prop := ∀ who, s.stdio who = .exited

instance (s : Stdout n) : Decidable (Finished s) :=
  inferInstanceAs (Decidable (∀ who, s.stdio who = .exited))

/-- Then all workers have been forked. -/
theorem forks_finished {s : Stdout n} (h : Copied s) (hdone : Finished s) : s.forks = n := by
  have hforks := h.forks
  cases hr : remaining s.parent.pc with
  | nil =>
      rw [hr] at hforks
      exact hforks
  | cons i is =>
      have habsent := h.absent i (by rw [hr]; exact List.mem_cons_self)
      rw [hdone] at habsent
      cases habsent

/-- **A line of the parent is in the file once, and once more for each worker forked after it was
logged.** -/
theorem count_output {s : Stdout n} (h : Copied s) (hdone : Finished s) {x : LogLine n}
    (hx : x ∈ s.lines) (hauthor : x.author = none) : s.output.count x + x.forks = 1 + n := by
  have hempty : ∀ who, (s.stdio who).buffer.count x = 0 := by
    intro who
    rw [hdone who, Stdio.buffer_exited, List.count_nil]
  have hcopies := h.copies x hx hauthor
  rw [forks_finished h hdone] at hcopies
  simp only [copies, hempty, Finset.sum_const_zero, Nat.add_zero] at hcopies
  exact hcopies

/-- Each line the parent logged is in the file once. -/
def EachOnce (s : Stdout n) : Prop := ∀ x ∈ s.lines, x.author = none → s.output.count x = 1

instance (s : Stdout n) : Decidable (EachOnce s) :=
  inferInstanceAs (Decidable (∀ x ∈ s.lines, x.author = none → s.output.count x = 1))

/--
**A line is repeated in every run.**

The line of `worker_pool_new` is in the file once for each process.
-/
theorem line_repeated {self : Listener} {fds : Descriptors (File n)} {s : Stdout n}
    {as : List (LogAction n)} (hn : 1 ≤ n)
    (h : (Stdout.lts self fds).Run Lts.Any (Stdout.start self fds) as s) (hdone : Finished s) :
    ¬ EachOnce s := by
  have hcopied := copied_run h
  have hforks := forks_finished hcopied hdone
  have hfirst := hcopied.first
  intro honce
  split at hfirst
  · obtain ⟨x, hx, hauthor, hzero⟩ := hfirst
    have hcount := count_output hcopied hdone hx hauthor
    have hone := honce x hx hauthor
    omega
  · omega

/-- One worker, which exits before the parent. -/
def oneWorkerExits : List (LogAction 1) :=
  [.poolNew, .dispatch (.socketpair (some (4, 5))), .dispatch (.fork 7), .dispatch .signal,
    .log (some solo), .exit (some solo), .exit none]

theorem line_repeated_oneWorker :
    ∃ s : Stdout 1,
      (Stdout.lts (Listener.listen 3) (usualTable 1)).Run Lts.Any
        (Stdout.start (Listener.listen 3) (usualTable 1)) oneWorkerExits s ∧ ¬ EachOnce s := by
  obtain ⟨s, hrun, hdone⟩ : ∃ s : Stdout 1,
      (Stdout.lts (Listener.listen 3) (usualTable 1)).Run Lts.Any
        (Stdout.start (Listener.listen 3) (usualTable 1)) oneWorkerExits s ∧ Finished s :=
    Lts.exists_run_of_exec (by decide +kernel)
  exact ⟨s, hrun, line_repeated (by decide) hrun hdone⟩

/-- Two processes, and two copies of the line. -/
theorem pool_line_twice :
    ¬ ∀ (n : Nat) (self : Listener) (fds : Descriptors (File n)) (s : Stdout n)
      (as : List (LogAction n)), 1 ≤ n →
      (Stdout.lts self fds).Run Lts.Any (Stdout.start self fds) as s → Finished s →
      EachOnce s := by
  intro hevery
  obtain ⟨s, hrun, hdone, htwice⟩ : ∃ s : Stdout 1,
      (Stdout.lts (Listener.listen 3) (usualTable 1)).Run Lts.Any
        (Stdout.start (Listener.listen 3) (usualTable 1)) oneWorkerExits s ∧
      Finished s ∧ ¬ EachOnce s :=
    Lts.exists_run_of_exec (by decide +kernel)
  exact htwice (hevery 1 _ _ s _ (by decide) hrun hdone)

end TcpServer.Proof
