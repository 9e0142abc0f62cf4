import TcpServer.Lib.Marks
import TcpServer.Model.Transcript
import TcpServer.Proof.Echo
import TcpServer.Proof.LogBuffer

/-!
# Reading a worker's output

A worker prints two kinds of things into one another: pages about its clients'
bytes, and log lines. They can be told apart afterwards. A log line of its loop is
coloured, so it begins with an escape character and what resets the colour behind it
with another, and there are no others in it; while of a client's bytes a page shows
only those as characters that are printable. What remains without the log lines are
the pages (`unlog_ownOutput`), and from these the bytes can be read back
(`transcript_reads_back`).

This is about what the worker prints itself. In front of it may be lines of the
parent that `fork` has copied, and not all of those have their colour reset.
-/

namespace TcpServer.Proof

open TcpServer World CString

variable {n : Nat} {c : Numbering n} {e e' : Echo n}

/-- A text without its coloured lines. -/
def unlog (text : List Char) : List Char := Marks.unmark escape 'm' text

/-! ## Pages -/

/-- `isprint`, of a character. -/
def Printable (x : Char) : Prop := ' ' ≤ x ∧ x ≤ '~'

instance (x : Char) : Decidable (Printable x) := inferInstanceAs (Decidable (_ ∧ _))

theorem printable_hexPadded {w k : Nat} {x : Char} (h : x ∈ Numerals.hexPadded w k) :
    Printable x := by
  have hdigit : ∀ d < 16, Printable (Nat.digitChar d) := by decide
  rcases List.mem_append.mp h with h | h
  · rw [List.eq_of_mem_replicate h]
    decide
  · obtain ⟨d, hd, rfl⟩ := Numerals.mem_toDigits (by decide) h
    exact hdigit d hd

theorem printable_hexCell {b : Option UInt8} {x : Char} (h : x ∈ hexCell b) : Printable x := by
  cases b with
  | none =>
      rw [List.eq_of_mem_replicate (show x ∈ List.replicate 3 ' ' from h)]
      decide
  | some b =>
      rcases List.mem_append.mp h with h | h
      · exact printable_hexPadded h
      · rw [List.mem_singleton.mp h]
        decide

theorem printable_charCell (b : Option UInt8) : Printable (charCell b) := by
  cases b with
  | none => decide
  | some b =>
      have hall : ∀ v : BitVec 8, Printable (charCell (some ⟨v⟩)) := by decide +kernel
      exact hall b.toBitVec

theorem printable_rowHead {k : Nat} {x : Char} (h : x ∈ rowHead k) : Printable x := by
  simp only [rowHead, List.mem_append, List.mem_cons, List.not_mem_nil, or_false] at h
  rcases h with (rfl | rfl | h) | rfl | rfl
  · decide
  · decide
  · exact printable_hexPadded h
  · decide
  · decide

/-- **Nothing but printable characters gets into a row**, whatever the bytes are. -/
theorem printable_rowBody {bs : List UInt8} {r : Nat} {x : Char} (h : x ∈ rowBody bs r) :
    Printable x := by
  rcases List.mem_append.mp h with h | h
  · rcases List.mem_append.mp h with h | h
    · exact printable_rowHead h
    · obtain ⟨m, _, hm⟩ := List.mem_flatMap.mp h
      exact printable_hexCell hm
  · obtain ⟨m, _, rfl⟩ := List.mem_map.mp h
    exact printable_charCell _

theorem escape_notMem_page (bs : List UInt8) : escape ∉ page bs := by
  have hdesc : escape ∉ rxDesc := by decide
  have hbreak : escape ≠ '\n' := by decide
  have hrow : ∀ r, escape ∉ rowBody bs r := by
    intro r hmem
    exact absurd (printable_rowBody hmem) (by decide)
  simp [page, dump, dumpRow, hdesc, hbreak, hrow]

/-! ## Log lines -/

/-- The lines of the levels that the loop logs at are coloured to their end. -/
theorem part_logMsg (site : LogSite) (line : BitVec 32) {level : LogLvl} {message : List Char}
    (hlevel : level = .info ∨ level = .err)
    (hplace : (headerPlace line workerPoolModule).length ≤ 100)
    (hescape : escape ∉ headerPlace line workerPoolModule ∧ escape ∉ message)
    (hnul : nul ∉ message) :
    Marks.Part escape 'm'
      (logMsg site.stack site.timestamp workerPoolModule line level message).stdout := by
  have hfits : (header site.timestamp workerPoolModule line level).length < logBufferSize := by
    have htime := length_headerTime site.timestamp level
    have hsize : logBufferSize = 1024 := rfl
    rw [header, List.length_append]
    omega
  have hwithin := logsWithin_of_fits site.stack site.timestamp workerPoolModule line level message
    hfits fun hmem => hnul (List.mem_of_mem_take hmem)
  have hheader : escape ∉ header site.timestamp workerPoolModule line level := by
    have hstr : escape ∉ logLvlStr level := by cases level <;> decide
    have hfixed : escape ∉ " [".toList ∧ escape ∉ "] ".toList ∧ escape ≠ ' ' := by decide
    simp only [header, headerTime, List.mem_append, List.mem_singleton, not_or]
    exact ⟨⟨⟨⟨⟨hfixed.1, site.plain⟩, hfixed.2.1⟩, hstr⟩, hfixed.2.2⟩, hescape.1⟩
  have hmessage : escape ∉ fitting (header site.timestamp workerPoolModule line level) message :=
    fun hmem => hescape.2 (List.mem_of_mem_take hmem)
  obtain ⟨colour, hcolour, hplain, hreset⟩ : ∃ colour, logColLine level = escape :: colour ∧
      escape ∉ colour ∧ logColLineReset level = escape :: "[0".toList ++ ['m'] := by
    rcases hlevel with rfl | rfl
    · exact ⟨"[0;37m".toList, by decide, by decide, by decide⟩
    · exact ⟨"[1;31m".toList, by decide, by decide, by decide⟩
  refine ⟨colour ++ (header site.timestamp workerPoolModule line level
    ++ fitting (header site.timestamp workerPoolModule line level) message) ++ ['\n'],
    "[0".toList, ?_, ?_, by decide⟩
  · rw [hwithin.stdout, hcolour, hreset]
    simp only [List.append_assoc, List.cons_append]
  · simp [hplain, hheader, hmessage, show escape ≠ '\n' by decide]

/-- **The loop's log lines leave nothing behind.** -/
theorem unlog_logged (pid : Int) (site : LogSite) (call : WorkerCall) (rest : List Char) :
    unlog (call.logged pid site ++ rest) = unlog rest := by
  have hstart : nul ∉ "Worker ".toList ++ Numerals.decimal pid ++ " starting ...".toList ∧
      escape ∉ "Worker ".toList ++ Numerals.decimal pid ++ " starting ...".toList := by
    have hdigits : nul ∉ Numerals.decimal pid ∧ escape ∉ Numerals.decimal pid :=
      ⟨Numerals.notMem_decimal (by decide) (by decide),
        Numerals.notMem_decimal (by decide) (by decide)⟩
    have hfixed : nul ∉ "Worker ".toList ∧ nul ∉ " starting ...".toList ∧
        escape ∉ "Worker ".toList ∧ escape ∉ " starting ...".toList := by decide
    simp only [List.mem_append, not_or]
    exact ⟨⟨⟨hfixed.1, hdigits.1⟩, hfixed.2.1⟩, ⟨hfixed.2.2.1, hdigits.2⟩, hfixed.2.2.2⟩
  cases call with
  | plumb =>
      exact Marks.unmark_part (part_logMsg site 128 (.inl rfl) (by decide +kernel)
        ⟨by decide +kernel, hstart.2⟩ hstart.1) rest
  | write b =>
      exact Marks.unmark_part (part_logMsg site 159 (.inl rfl) (by decide +kernel)
        ⟨by decide +kernel, by decide⟩ (by decide)) rest
  | ipcFdRead ret =>
      cases ret with
      | eof =>
          exact Marks.unmark_part (part_logMsg site 134 (.inr rfl) (by decide +kernel)
            ⟨by decide +kernel, by decide⟩ (by decide)) rest
      | err | got byte fd => rfl
  | callback conn | callbackRet | close fd => rfl

/-! ## One action -/

/-- What a call of a callback prints is a page, or nothing. -/
theorem printed_of_stage {f f' : Callback} {s s' : Stream} {call : CallbackCall} (h : Stage f s)
    (hs : Callback.Step f s call f' s') :
    Echo.printed f call = [] ∨ ∃ bs, Echo.printed f call = page bs := by
  cases hs with
  | failed hpc | read hpc hlen hpre heof | refused hpc | write hpc hm hsize => exact .inl rfl
  | hexdump hpc hout =>
      rw [Stage, hpc] at h
      obtain ⟨ret, hret⟩ := h
      exact .inr ⟨ret.getD [], by simp [Echo.printed, hout, hret.loaded.dumped hout]⟩

/-- **What an action prints is log lines, and what it adds to the pages.** -/
theorem unlog_prints (pid : Int) (site : LogSite) (i : Fin n) {l : EchoLabel n}
    (h : Inv c e.world) (he : EchoInv e) (hs : e.step l = some e') (rest : List Char) :
    e.stdout i ++ unlog (e.prints pid site i l ++ rest) = e'.stdout i ++ unlog rest := by
  cases l with
  | sys l =>
      obtain ⟨_, _, _, _, hstdout⟩ := Echo.step_sys hs
      rw [hstdout]
      cases l with
      | worker j call =>
          rw [Echo.prints]
          split
          · rw [unlog_logged]
          · rfl
      | parent call | arrive | die j | stderr j b => rfl
  | callback j call =>
      obtain ⟨hpc, f, k, s, hk, hstep, rfl⟩ := Echo.step_callback hs
      have hengaged := he.apart.engaged_of_lookup h.exclusive hpc hk
      have hstage := (he.running j _ k hengaged).2
      show _ = Function.update e.stdout j _ i ++ _
      rw [Echo.prints]
      by_cases hji : j = i
      · subst hji
        rw [if_pos rfl, Function.update_self, List.append_assoc]
        congr 1
        rcases printed_of_stage hstage hstep with hnone | ⟨bs, hpage⟩
        · rw [hnone]
          rfl
        · rw [hpage]
          exact Marks.unmark_append (escape_notMem_page bs) rest
      · rw [if_neg hji, Function.update_of_ne (Ne.symm hji)]
        rfl
  | send k bs =>
      obtain ⟨_, rfl⟩ := Echo.step_send hs
      rfl
  | finish k =>
      obtain ⟨_, rfl⟩ := Echo.step_finish hs
      rfl

/-! ## Every run -/

/-- **What is left of the text that a worker has printed are its pages.** -/
theorem unlog_ownOutput (pid : Int) (site : Nat → LogSite) (i : Fin n) {ls : List (EchoLabel n)}
    (hrun : (Echo.lts c).Run EchoFaultFree e ls e') (h : Inv c e.world ∧ EchoInv e) (t : Nat) :
    e.stdout i ++ unlog (Echo.ownOutput pid site i t e ls) = e'.stdout i := by
  induction hrun generalizing t with
  | nil e => exact List.append_nil _
  | @cons e d e' l ls hok hs hrun ih =>
      have hstep : e.step l = some d := hs
      rw [Echo.ownOutput, hstep]
      dsimp only
      rw [unlog_prints pid (site t) i h.1 h.2 hstep, ih (echoInv_step h hok hstep) (t + 1)]

/--
**What each client sent can be read off the output of the workers.**

At every instant of a run without faults a worker has printed, behind what it
inherited and between its log lines, whole pages, one for each of the connections it
has begun, in order and up to the current one at most, and the bytes that it read
from them can be taken out of the text again. What it inherited does not matter, nor
what the log lines say, nor what the bytes are.
-/
theorem transcript_reads_back (c : Numbering n) (inherited : List Char) (pid : Int)
    (site : Nat → LogSite) (i : Fin n) {ls : List (EchoLabel n)} (hinit : (Echo.lts c).init e)
    (hrun : (Echo.lts c).Run EchoFaultFree e ls e') :
    ∃ ks, (e'.world.node i).log.returned <+: ks ∧ ks <+: (e'.world.node i).log.started
      ∧ unpage (unlog ((e.transcript inherited pid site i ls).drop inherited.length))
        = ks.map fun k => (e'.stream k).taken := by
  have hr : (Echo.lts c).Reachable EchoFaultFree e' := ⟨e, ls, hinit, hrun⟩
  obtain ⟨hi', he'⟩ := echoInv_reachable hr
  obtain ⟨cmd, mem, rfl⟩ := hinit
  have htext := unlog_ownOutput pid site i hrun ⟨inv_init c cmd, echoInv_start cmd mem⟩ 0
  rw [Echo.start, List.nil_append] at htext
  rw [Echo.transcript, List.drop_left, Echo.start, htext]
  exact he'.pages hi' i

/-- The stack is clear, and the clock stands. -/
def exampleSite : LogSite := ⟨fun _ => nul, exampleTime, by decide⟩

/-- Two clients before whom nothing has happened. -/
def quietEcho : Echo 2 := Echo.start .twoWorkers (fun _ => 0) fun _ _ => 0

/-- A line that the parent may have printed before it forks, with no reset behind it. -/
def debugLine : List Char :=
  (logMsg exampleSite.stack exampleSite.timestamp ⟨"main".toList, by decide⟩ 104 .debug
    "Using default interface for the TCP server: \"lo\"".toList).stdout

theorem transcript_reads_back_twoClients :
    ∃ e, (Echo.lts .twoWorkers).Run EchoFaultFree quietEcho twoClients e ∧
      (e.world.node firstWorker).log.started = [0] ∧ ∃ ks, ks <+: [0] ∧
        unpage (unlog ((quietEcho.transcript debugLine 4711 (fun _ => exampleSite) firstWorker
            twoClients).drop debugLine.length))
          = ks.map fun k => (e.stream k).taken := by
  obtain ⟨e, hrun, hstarted⟩ : ∃ e,
      (Echo.lts .twoWorkers).Run EchoFaultFree quietEcho twoClients e ∧
        (e.world.node firstWorker).log.started = [0] :=
    Lts.exists_run_of_exec (by decide +kernel)
  obtain ⟨ks, _, hks, hread⟩ := transcript_reads_back .twoWorkers debugLine 4711
    (fun _ => exampleSite) firstWorker ⟨_, _, rfl⟩ hrun
  exact ⟨e, hrun, hstarted, ks, hstarted ▸ hks, hread⟩

end TcpServer.Proof
