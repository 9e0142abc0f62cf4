import TcpServer.Model.World

/-!
# The workers after the parent's death

When the parent dies the kernel closes its descriptors, and what is left of a
channel is what the workers hold of it. A worker holds more than its own end:
`fork` copies the parent's table, so a worker starts with the parent's ends of
the channels of all workers dispatched before it, and of its own until its
prologue has closed that one. The others it never closes.

A channel without any copy of the parent's end reads as end-of-file once its
pending messages are received, and a write to it ends the writer. The workers
run the same loop as ever, `WorkerProc.step`.
-/

namespace TcpServer

/-- A worker without a parent. -/
structure Orphan (k : Nat) where
  proc : WorkerProc
  /-- Messages it has not received yet. -/
  inbox : List Msg
  /-- The workers of whose channel it holds a copy of the parent's end. Its exit closes them. -/
  ends : Finset (Fin k)

/-- The workers of a server whose parent has died. -/
abbrev Orphans (k : Nat) := Fin k → Orphan k

namespace Orphans

variable {k : Nat}

/-- Somebody holds the parent's end of worker `i`'s channel. -/
def hasPeer (s : Orphans k) (i : Fin k) : Bool :=
  (List.finRange k).any fun j => !(s j).proc.gone && decide (i ∈ (s j).ends)

/-- The kernel's part in a call of worker `i`. A descriptor may be lost on the way. -/
def kernel (s : Orphans k) (i : Fin k) : WorkerCall → Option (Orphan k)
  | .plumb => some { s i with ends := (s i).ends.erase i }
  | .ipcFdRead .eof =>
      if (s i).inbox.isEmpty = true ∧ s.hasPeer i = false then some (s i) else none
  | .ipcFdRead .err => none
  | .ipcFdRead (.got byte recvfd) =>
      match (s i).inbox with
      | [] => none
      | m :: ms =>
          if byte = m.byte ∧ (recvfd = -1 ∨ m.file.isSome = true ∧ 0 ≤ recvfd) then
            some { s i with inbox := ms }
          else none
  | .callback _ | .callbackRet | .close _ | .write _ => some (s i)

/-- What a call leaves of the process that made it: `SIGPIPE` ends a writer without a peer. -/
def survive (peer : Bool) (proc : WorkerProc) : WorkerCall → WorkerProc
  | .write _ => if peer = true then proc else { proc with pc := .dead }
  | .plumb | .ipcFdRead _ | .callback _ | .callbackRet | .close _ => proc

/-- One step: a worker makes a call. -/
def step (s : Orphans k) : Fin k × WorkerCall → Option (Orphans k)
  | (i, c) =>
      match (s i).proc.step c, s.kernel i c with
      | some proc, some o =>
          some (Function.update s i { o with proc := survive (s.hasPeer i) proc c })
      | _, _ => none

/-- What every worker holds when the parent dies, whatever it is doing: parent's ends of earlier
channels only, and in its prologue its own. -/
def ParentDied (s : Orphans k) : Prop :=
  ∀ j, ∀ i ∈ (s j).ends, i < j ∨ (i = j ∧ (s j).proc.pc = .prologue)

/-- The workers from the parent's death on. -/
def lts (k : Nat) : Lts (Orphans k) (Fin k × WorkerCall) where
  init := ParentDied
  step := step

/-- The workers of a running server, with every copy that `fork` made of the parent's ends. -/
def ofNodes (node : Fin k → Node) : Orphans k := fun j =>
  { proc := (node j).proc
    inbox := (node j).inbox
    ends := Finset.univ.filter fun i => i < j ∨ (i = j ∧ (node j).proc.pc = .prologue) }

theorem mem_ends_ofNodes {node : Fin k → Node} {i j : Fin k} :
    i ∈ (ofNodes node j).ends ↔ i < j ∨ (i = j ∧ (node j).proc.pc = .prologue) := by
  simp [ofNodes]

/-- The parent may die in any state of the server. -/
theorem parentDied_ofNodes (node : Fin k → Node) : ParentDied (ofNodes node) := by
  intro j i hi
  exact mem_ends_ofNodes.mp hi

theorem hasPeer_iff {s : Orphans k} {i : Fin k} :
    s.hasPeer i = true ↔ ∃ j, (s j).proc.gone = false ∧ i ∈ (s j).ends := by
  simp [hasPeer]

/-! ## Everything a step can do -/

/-- The steps, one constructor for each call with its outcome. -/
inductive Step : Orphans k → Fin k × WorkerCall → Orphans k → Prop
  | plumb {s : Orphans k} {i : Fin k} (hpc : (s i).proc.pc = .prologue) :
      Step s (i, .plumb) (Function.update s i
        { s i with proc := { (s i).proc with pc := .reading }, ends := (s i).ends.erase i })
  | eof {s : Orphans k} {i : Fin k} (hpc : (s i).proc.pc = .reading) (hin : (s i).inbox = [])
      (hpeer : s.hasPeer i = false) :
      Step s (i, .ipcFdRead .eof) (Function.update s i
        { s i with proc := { (s i).proc with pc := .hungUp } })
  | recv {s : Orphans k} {i : Fin k} {m : Msg} {ms : List Msg} {recvfd : Int}
      (hpc : (s i).proc.pc = .reading) (hin : (s i).inbox = m :: ms)
      (hfd : recvfd = -1 ∨ m.file.isSome = true ∧ 0 ≤ recvfd) :
      Step s (i, .ipcFdRead (.got m.byte recvfd)) (Function.update s i
        { s i with
          proc := { (s i).proc with cmd := m.byte, conn := recvfd }.dispatchCmd, inbox := ms })
  | callback {s : Orphans k} {i : Fin k} (hpc : (s i).proc.pc = .serving) :
      Step s (i, .callback (s i).proc.conn) (Function.update s i
        { s i with proc := { (s i).proc with pc := .inCallback } })
  | callbackRet {s : Orphans k} {i : Fin k} (hpc : (s i).proc.pc = .inCallback) :
      Step s (i, .callbackRet) (Function.update s i
        { s i with proc := { (s i).proc with pc := .closing } })
  | close {s : Orphans k} {i : Fin k} (hpc : (s i).proc.pc = .closing) :
      Step s (i, .close (s i).proc.conn) (Function.update s i
        { s i with proc := { (s i).proc with pc := .reporting } })
  | report {s : Orphans k} {i : Fin k} (hpc : (s i).proc.pc = .reporting)
      (hpeer : s.hasPeer i = true) :
      Step s (i, .write cmdDone) (Function.update s i
        { s i with proc := { (s i).proc with pc := .reading } })
  | killed {s : Orphans k} {i : Fin k} (hpc : (s i).proc.pc = .reporting)
      (hpeer : s.hasPeer i = false) :
      Step s (i, .write cmdDone) (Function.update s i
        { s i with proc := { (s i).proc with pc := .dead } })

theorem step_cases {s t : Orphans k} {a : Fin k × WorkerCall} (h : s.step a = some t) :
    Step s a t := by
  obtain ⟨i, c⟩ := a
  rw [step] at h
  split at h
  · rename_i proc o hp hk
    cases h
    cases WorkerProc.step_cases hp with
    | plumb hpc => cases hk; exact .plumb hpc
    | eof hpc =>
        simp only [kernel, Option.ite_none_right_eq_some, Option.some.injEq,
          List.isEmpty_iff] at hk
        obtain ⟨⟨hin, hpeer⟩, rfl⟩ := hk
        exact .eof hpc hin hpeer
    | err hpc => cases hk
    | @got byte recvfd hpc =>
        rw [kernel] at hk
        split at hk
        · cases hk
        · rename_i m ms hin
          simp only [Option.ite_none_right_eq_some, Option.some.injEq] at hk
          obtain ⟨⟨rfl, hfd⟩, rfl⟩ := hk
          exact .recv hpc hin hfd
    | callback hpc => cases hk; exact .callback hpc
    | callbackRet hpc => cases hk; exact .callbackRet hpc
    | close hpc => cases hk; exact .close hpc
    | report hpc =>
        cases hk
        cases hpeer : s.hasPeer i with
        | true => exact .report hpc hpeer
        | false => exact .killed hpc hpeer
  · cases h

end Orphans

end TcpServer
