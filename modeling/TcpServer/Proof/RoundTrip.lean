import TcpServer.Model.IpcFd
import TcpServer.Model.World

/-!
# What is sent is what is read

`ipc_fd_write` and `ipc_fd_read` are two sides of one layout, and they agree on
it: the header that the first one lays out over whatever the buffer held passes
every check of the second (`rightsHeader_ipcFdWrite`, `ipcFdRead_of_header`),
also after the kernel has put another number into its data
(`RightsHeader.delivered`).

Over a whole channel nothing is left over from one read for the next: messages
with and without control data can be mixed, and every read answers the command
at its position (`Linked`, kept by every step). So the workers' loop may be
modelled with a read that stores a byte and a descriptor or `-1`
(`kernel_ipcFdRead`).
-/

namespace TcpServer.Proof

open TcpServer Bytes

variable {φ : Type}

/-! ## The header -/

/-- The control data is one `SCM_RIGHTS` message with `fd` in it. -/
structure RightsHeader (msg : Msghdr) (fd : BitVec 32) : Prop where
  controllen : msg.controllen = cmsgSpace sizeofInt
  len : msg.cmsgLenAt 0 = cmsgLen sizeofInt
  level : msg.cmsgLevelAt 0 = solSocket
  type : msg.cmsgTypeAt 0 = scmRights
  data : msg.cmsgDataAt 0 = fd

theorem RightsHeader.firsthdr {msg : Msghdr} {fd : BitVec 32} (h : RightsHeader msg fd) :
    msg.cmsgFirsthdr = some 0 := by
  rw [Msghdr.cmsgFirsthdr, h.controllen]
  rfl

/-- Setting the data leaves the fields before it alone. -/
theorem rightsHeader_setCmsgData {msg : Msghdr} (fd : BitVec 32)
    (hcontrollen : msg.controllen = cmsgSpace sizeofInt)
    (hlen : msg.cmsgLenAt 0 = cmsgLen sizeofInt)
    (hlevel : msg.cmsgLevelAt 0 = solSocket) (htype : msg.cmsgTypeAt 0 = scmRights) :
    RightsHeader (msg.setCmsgData 0 fd) fd where
  controllen := hcontrollen
  len := (load_store_ne _ (.inl (by decide))).trans hlen
  level := (load_store_ne _ (.inl (by decide))).trans hlevel
  type := (load_store_ne _ (.inl (by decide))).trans htype
  data := ofNat_load_store _ _ fd

/-- **What `ipc_fd_write` lays out**, whatever the buffer held. -/
theorem rightsHeader_ipcFdWrite (uninit : Buffer) (sendfd : BitVec 32) :
    ∃ msg, ipcFdWrite uninit sendfd = some msg ∧ RightsHeader msg sendfd := by
  refine ⟨_, rfl, rightsHeader_setCmsgData sendfd rfl ?_ ?_ ?_⟩
  · -- `cmsg_len` lies below the other two
    show load (store (store _ 8 4 _) 12 4 _) 0 8 = _
    rw [load_store_ne _ (.inl (by decide)), load_store_ne _ (.inl (by decide)), load_store_self]
    rfl
  · show load (store _ 12 4 _) 8 4 = _
    rw [load_store_ne _ (.inl (by decide)), load_store_self]
    rfl
  · show load (store _ 12 4 _) 12 4 = _
    rw [load_store_self]
    rfl

/-- It passes every check of `ipc_fd_read`. -/
theorem ipcFdRead_of_header {msg : Msghdr} {fd : BitVec 32} (h : RightsHeader msg fd)
    (byte c : UInt8) (recvfd : BitVec 32) :
    ipcFdRead (.got byte msg) c recvfd = ⟨1, byte, fd⟩ := by
  rw [ipcFdRead, h.firsthdr]
  simp [h.len, h.level, h.type, h.data]

/-- Delivery changes the number and nothing else. -/
theorem RightsHeader.delivered {msg : Msghdr} {fd : BitVec 32} (h : RightsHeader msg fd)
    (uninit : Buffer) (newfd : BitVec 32) :
    RightsHeader
      { control := overwrite uninit (msg.setCmsgData 0 newfd).control msg.controllen
        controllen := msg.controllen } newfd := by
  have hset := rightsHeader_setCmsgData newfd h.controllen h.len h.level h.type
  have hload : ∀ off k, off + k ≤ cmsgSpace sizeofInt →
      load (overwrite uninit (msg.setCmsgData 0 newfd).control msg.controllen) off k
        = load (msg.setCmsgData 0 newfd).control off k := by
    intro off k hk
    exact load_overwrite _ _ (by rw [h.controllen]; exact hk)
  exact
    { controllen := h.controllen
      len := (hload 0 8 (by decide)).trans hset.len
      level := (hload 8 4 (by decide)).trans hset.level
      type := (hload 12 4 (by decide)).trans hset.type
      data := (congrArg (BitVec.ofNat 32) (hload 16 4 (by decide))).trans hset.data }

/-! ## One message -/

/-- The packet is the command's. -/
inductive Carries : Command φ → Packet φ → Prop
  | plain (byte : UInt8) : Carries ⟨byte, none⟩ (.write byte)
  | file (byte : UInt8) (f : φ) {msg : Msghdr} {fd : BitVec 32} (h : RightsHeader msg fd) :
      Carries ⟨byte, some f⟩ ⟨byte, some (msg, f)⟩

/-- The read returned what the command sent. -/
structure Returned (cmd : Command φ) (r : Reading φ) : Prop where
  ret : r.result.ret = 1
  byte : r.result.c = cmd.byte
  /-- `recvfd` names the file that `sendfd` named. -/
  file : ∀ f, cmd.file = some f → 0 ≤ r.result.recvfd.toInt ∧ r.file = some f
  plain : cmd.file = none → r.result.recvfd = -1

/-- What `ipc_fd_read` makes of a packet, whatever its variables and its buffer held. -/
theorem ipcFdRead_recvmsg {cmd : Command φ} {pkt : Packet φ} (h : Carries cmd pkt)
    (uninit : Buffer) (newfd : BitVec 32) (c : UInt8) (recvfd : BitVec 32) :
    ipcFdRead (pkt.recvmsg uninit newfd) c recvfd
      = ⟨1, cmd.byte, if cmd.file.isSome then newfd else -1⟩ := by
  cases h with
  | plain byte => rfl
  | file byte f hmsg => exact ipcFdRead_of_header (hmsg.delivered uninit newfd) byte c recvfd

theorem Carries.returned {cmd : Command φ} {pkt : Packet φ} (h : Carries cmd pkt)
    {t : Descriptors φ} {newfd : BitVec 32} (hfd : t.Unused newfd) (uninit : Buffer) (c : UInt8)
    (recvfd : BitVec 32) :
    let r := ipcFdRead (pkt.recvmsg uninit newfd) c recvfd
    Returned cmd ⟨r, (pkt.install t newfd).named r.recvfd⟩ := by
  rw [ipcFdRead_recvmsg h]
  cases h with
  | plain byte => exact ⟨rfl, rfl, (by intro f hf; cases hf), fun _ => rfl⟩
  | file byte f hmsg =>
      refine ⟨rfl, rfl, ?_, by intro hf; cases hf⟩
      intro g hg
      cases hg
      exact ⟨hfd.1, Descriptors.named_install_self t f hfd.1⟩

/-- Sending an open descriptor puts the command's packet on the channel. -/
theorem sendmsg_ipcFdWrite {t : Descriptors φ} {sendfd : BitVec 32} {f : φ}
    (h : t.named sendfd = some f) (uninit : Buffer) (byte : UInt8) :
    ∃ msg pkt, ipcFdWrite uninit sendfd = some msg ∧ Packet.sendmsg t byte msg = some pkt ∧
      Carries ⟨byte, some f⟩ pkt := by
  obtain ⟨msg, hwrite, hmsg⟩ := rightsHeader_ipcFdWrite uninit sendfd
  refine ⟨msg, ⟨byte, some (msg, f)⟩, hwrite, ?_, .file byte f hmsg⟩
  rw [Packet.sendmsg, hmsg.firsthdr]
  simp [hmsg.len, hmsg.level, hmsg.type, hmsg.data, h]

/-- On a descriptor that is not open it sends nothing. -/
theorem sendmsg_eq_none {t : Descriptors φ} {sendfd : BitVec 32} {msg : Msghdr}
    (h : t.named sendfd = none) (hmsg : RightsHeader msg sendfd) (byte : UInt8) :
    Packet.sendmsg t byte msg = none := by
  rw [Packet.sendmsg, hmsg.firsthdr]
  simp [hmsg.data, h]

/-- The read is one that the worker's kernel answers with the same byte and descriptor. -/
theorem kernel_ipcFdRead {cmd : Command Conn} {pkt : Packet Conn} (h : Carries cmd pkt) {nd : Node}
    {ms : List Msg} (hin : nd.inbox = ⟨cmd.byte, cmd.file⟩ :: ms) {newfd : BitVec 32}
    (hfd : nd.fds.Free newfd.toInt) (uninit : Buffer) (c : UInt8) (recvfd : BitVec 32) :
    let r := ipcFdRead (pkt.recvmsg uninit newfd) c recvfd
    (nd.kernel (.ipcFdRead (.got r.c r.recvfd.toInt))).isSome = true := by
  rw [ipcFdRead_recvmsg h]
  cases h with
  | plain byte => simp [Node.kernel, hin]
  | file byte f hmsg => simp [Node.kernel, hin, hfd]

/-! ## The channel -/

/-- The commands sent are those answered, in order, and then those still under way. -/
def Linked (s : IpcLink φ) : Prop :=
  ∃ answered pending, s.sent = answered ++ pending ∧ List.Forall₂ Returned answered s.readings ∧
    List.Forall₂ Carries pending s.queue

theorem linked_fresh {s : IpcLink φ} (h : s.Fresh) : Linked s := by
  refine ⟨[], [], h.sent, ?_, ?_⟩
  · rw [h.readings]; exact .nil
  · rw [h.queue]; exact .nil

/-- One more command under way. -/
theorem Linked.send {s : IpcLink φ} (h : Linked s) {cmd : Command φ} {pkt : Packet φ}
    (hpkt : Carries cmd pkt) :
    Linked { s with queue := s.queue ++ [pkt], sent := s.sent ++ [cmd] } := by
  obtain ⟨answered, pending, hsent, hans, hpend⟩ := h
  refine ⟨answered, pending ++ [cmd], ?_, hans, ?_⟩
  · rw [← List.append_assoc, ← hsent]
  · exact List.rel_append hpend (.cons hpkt .nil)

theorem linked_step {s t : IpcLink φ} {a : IpcAct φ} (h : Linked s) (hs : s.step a = some t) :
    Linked t := by
  cases a with
  | ipcFdWrite uninit byte sendfd =>
      cases hf : s.sender.named sendfd with
      | none =>
          obtain ⟨msg, hwrite, hmsg⟩ := rightsHeader_ipcFdWrite uninit sendfd
          simp only [IpcLink.step, hwrite, sendmsg_eq_none hf hmsg] at hs
          cases hs
          exact h
      | some f =>
          obtain ⟨msg, pkt, hwrite, hsend, hpkt⟩ := sendmsg_ipcFdWrite hf uninit byte
          simp only [IpcLink.step, hwrite, hsend, hf] at hs
          cases hs
          exact h.send hpkt
  | write byte =>
      cases hs
      exact h.send (.plain byte)
  | ipcFdRead uninit newfd =>
      obtain ⟨answered, pending, hsent, hans, hpend⟩ := h
      rw [IpcLink.step] at hs
      split at hs
      · exact absurd hs (by simp)
      · rename_i pkt pkts hqueue
        split at hs
        · rename_i hfd
          cases hs
          rw [hqueue] at hpend
          cases hpend with
          | @cons cmd _ pending _ hpkt hrest =>
              refine ⟨answered ++ [cmd], pending, ?_, ?_, hrest⟩
              · rw [hsent, List.append_assoc]; rfl
              · exact List.rel_append hans (.cons (hpkt.returned hfd uninit s.c s.recvfd) .nil)
        · exact absurd hs (by simp)
  | other sender receiver c recvfd =>
      cases hs
      exact h

theorem linked_run {s₀ s : IpcLink φ} {ls : List (IpcAct φ)} (h₀ : s₀.Fresh)
    (h : (IpcLink.lts φ).Run Lts.Any s₀ ls s) : Linked s := by
  refine h.invariant ?_ (linked_fresh h₀)
  intro s a t hl _ hs
  exact linked_step hl hs

/-! ## Round trips -/

/-- What a channel owes the two processes. -/
structure RoundTrips (s : IpcLink φ) : Prop where
  /-- Every open descriptor can be sent. -/
  sends : ∀ uninit byte sendfd f, s.sender.named sendfd = some f →
    ∃ t, s.step (.ipcFdWrite uninit byte sendfd) = some t ∧ t.sent = s.sent ++ [⟨byte, some f⟩]
  /-- As many reads return as commands were sent. -/
  returns : s.readings.length < s.sent.length → ∀ uninit newfd, s.receiver.Unused newfd →
    (s.step (.ipcFdRead uninit newfd)).isSome = true
  /-- They return, in order, what was sent. -/
  answered : List.Forall₂ Returned (s.sent.take s.readings.length) s.readings

/-- `ipc_fd_read` accepts what `ipc_fd_write` lays out, and takes out what that put in. -/
def HeaderAccepted : Prop :=
  ∀ (uninit : Buffer) (sendfd : BitVec 32), ∃ msg, ipcFdWrite uninit sendfd = some msg ∧
    ∀ byte c recvfd, ipcFdRead (.got byte msg) c recvfd = ⟨1, byte, sendfd⟩

theorem Linked.roundTrips {s : IpcLink φ} (h : Linked s) : RoundTrips s := by
  obtain ⟨answered, pending, hsent, hans, hpend⟩ := h
  have hlen := hans.length_eq
  refine ⟨?_, ?_, ?_⟩
  · intro uninit byte sendfd f hf
    obtain ⟨msg, pkt, hwrite, hsend, _⟩ := sendmsg_ipcFdWrite hf uninit byte
    simp [IpcLink.step, hwrite, hsend, hf]
  · intro hlt uninit newfd hfd
    rw [hsent, List.length_append, ← hlen] at hlt
    cases hqueue : s.queue with
    | nil =>
        rw [hqueue] at hpend
        cases hpend
        simp at hlt
    | cons pkt pkts => simp [IpcLink.step, hqueue, hfd]
  · rw [hsent, ← hlen, List.take_left]
    exact hans

/--
**Descriptors and plain bytes make the round trip, in order.**

`ls` is any sequence of sends of either kind and of reads, with the two processes
opening and closing files and assigning to the variables in between.
-/
theorem passing_round_trips {s₀ s : IpcLink φ} {ls : List (IpcAct φ)} (h₀ : s₀.Fresh)
    (h : (IpcLink.lts φ).Run Lts.Any s₀ ls s) : RoundTrips s ∧ HeaderAccepted := by
  refine ⟨(linked_run h₀ h).roundTrips, ?_⟩
  intro uninit sendfd
  obtain ⟨msg, hwrite, hmsg⟩ := rightsHeader_ipcFdWrite uninit sendfd
  exact ⟨msg, hwrite, fun byte c recvfd => ipcFdRead_of_header hmsg byte c recvfd⟩

/-- The byte `'p'` with descriptor `5`, then `'s'`. The reader's buffer, `c` and `recvfd` are full
of other things, and its number `5` is taken. -/
theorem passing_round_trips_twoCommands :
    ∃ s : IpcLink Nat, s.readings.map (fun r => r.result) = [⟨1, cmdConn, 6⟩, ⟨1, cmdStop, -1⟩] ∧
      List.Forall₂ Returned [⟨cmdConn, some 70⟩, ⟨cmdStop, none⟩] s.readings ∧ HeaderAccepted := by
  obtain ⟨s, hrun, hresults, hsent⟩ : ∃ s : IpcLink Nat,
      (IpcLink.lts Nat).Run Lts.Any
        { sender := Descriptors.empty.install 5 70
          receiver := Descriptors.empty.install 5 71
          queue := []
          c := 255
          recvfd := 9
          sent := []
          readings := [] }
        [.ipcFdWrite (fun _ => 170) cmdConn 5, .write cmdStop, .ipcFdRead (fun _ => 85) 6,
          .ipcFdRead (fun _ => 85) 7] s ∧
        s.readings.map (fun r => r.result) = [⟨1, cmdConn, 6⟩, ⟨1, cmdStop, -1⟩] ∧
        s.sent = [⟨cmdConn, some 70⟩, ⟨cmdStop, none⟩] :=
    Lts.exists_run_of_exec (by decide +kernel)
  obtain ⟨htrips, haccepted⟩ := passing_round_trips ⟨rfl, rfl, rfl⟩ hrun
  have hanswered := htrips.answered
  have hlen : s.readings.length = 2 := by simpa using congrArg List.length hresults
  rw [hlen, hsent] at hanswered
  exact ⟨s, hresults, hanswered, haccepted⟩

end TcpServer.Proof
