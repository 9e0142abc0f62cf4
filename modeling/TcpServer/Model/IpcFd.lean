import TcpServer.Lib.Bytes
import TcpServer.Lib.Descriptors
import TcpServer.Lib.Lts

/-!
# Passing descriptors

`ipc_fd.c`: a byte sent over a stream socket together with a descriptor, in the
control data of the message. The sender lays out one `struct cmsghdr` with an
`int` behind it; the receiver checks what it got and takes the `int` out. The
layout is the one of a 64-bit Linux, where `cmsg_len` takes eight bytes and
everything is aligned to eight.

The control buffers are local variables that nobody initialises, so what they
hold before a call is a parameter.
-/

namespace TcpServer

open Bytes

/-! ## Control messages -/

/-- `sizeof(int)`. -/
def sizeofInt : Nat := 4

/-- `sizeof(size_t)`. -/
def sizeofSizeT : Nat := 8

/-- `sizeof(struct cmsghdr)`: `size_t cmsg_len; int cmsg_level; int cmsg_type;`. -/
def sizeofCmsghdr : Nat := 16

/-- `CMSG_ALIGN`: up to a multiple of `sizeof(size_t)`. -/
def cmsgAlign (len : Nat) : Nat := (len + sizeofSizeT - 1) / sizeofSizeT * sizeofSizeT

/-- `CMSG_SPACE`. -/
def cmsgSpace (len : Nat) : Nat := cmsgAlign len + cmsgAlign sizeofCmsghdr

/-- `CMSG_LEN`. -/
def cmsgLen (len : Nat) : Nat := cmsgAlign sizeofCmsghdr + len

/-- `SOL_SOCKET`. -/
def solSocket : Nat := 1

/-- `SCM_RIGHTS`. -/
def scmRights : Nat := 1

/-- `msg_control` and `msg_controllen` of a `struct msghdr`. -/
structure Msghdr where
  control : Buffer
  controllen : Nat

namespace Msghdr

/-- `CMSG_FIRSTHDR`: an offset into the control buffer, or `NULL`. -/
def cmsgFirsthdr (msg : Msghdr) : Option Nat :=
  if sizeofCmsghdr ≤ msg.controllen then some 0 else none

/-- `cmptr->cmsg_len`. -/
def cmsgLenAt (msg : Msghdr) (cmptr : Nat) : Nat := load msg.control cmptr 8

/-- `cmptr->cmsg_level`. -/
def cmsgLevelAt (msg : Msghdr) (cmptr : Nat) : Nat := load msg.control (cmptr + 8) 4

/-- `cmptr->cmsg_type`. -/
def cmsgTypeAt (msg : Msghdr) (cmptr : Nat) : Nat := load msg.control (cmptr + 12) 4

/-- `*((int *) CMSG_DATA(cmptr))`. -/
def cmsgDataAt (msg : Msghdr) (cmptr : Nat) : BitVec 32 :=
  BitVec.ofNat 32 (load msg.control (cmptr + sizeofCmsghdr) 4)

/-- `*((int *) CMSG_DATA(cmptr)) = v`. -/
def setCmsgData (msg : Msghdr) (cmptr : Nat) (v : BitVec 32) : Msghdr :=
  { msg with control := store msg.control (cmptr + sizeofCmsghdr) 4 v.toNat }

end Msghdr

/-! ## The two functions -/

/-- `ipc_fd_write` up to its `sendmsg`; `none` if it dereferenced `NULL`. -/
def ipcFdWrite (uninit : Buffer) (sendfd : BitVec 32) : Option Msghdr :=
  let msg : Msghdr := { control := uninit, controllen := cmsgSpace sizeofInt }
  msg.cmsgFirsthdr.map fun cmptr =>
    let control := store msg.control cmptr 8 (cmsgLen sizeofInt)
    let control := store control (cmptr + 8) 4 solSocket
    let control := store control (cmptr + 12) 4 scmRights
    ({ msg with control := control } : Msghdr).setCmsgData cmptr sendfd

/-- What `recvmsg` did: returned `0` or `-1`, or one byte with the control data it left. -/
inductive RecvRet where
  | eof
  | err
  | got (byte : UInt8) (msg : Msghdr)

/-- What `ipc_fd_read` returned, and its two output variables afterwards. -/
structure IpcFdRead where
  ret : Int
  c : UInt8
  recvfd : BitVec 32
  deriving DecidableEq, Repr

/-- `ipc_fd_read(fd, &c, 1, &recvfd)` from its `recvmsg` on, with the values the two variables
had. -/
def ipcFdRead (ret : RecvRet) (c : UInt8) (recvfd : BitVec 32) : IpcFdRead :=
  match ret with
  | .eof => ⟨0, c, recvfd⟩
  | .err => ⟨-1, c, recvfd⟩
  | .got byte msg =>
      match msg.cmsgFirsthdr with
      | some cmptr =>
          if msg.cmsgLenAt cmptr = cmsgLen sizeofInt then
            if msg.cmsgLevelAt cmptr ≠ solSocket then ⟨-1, byte, recvfd⟩
            else if msg.cmsgTypeAt cmptr ≠ scmRights then ⟨-1, byte, recvfd⟩
            else ⟨1, byte, msg.cmsgDataAt cmptr⟩
          else ⟨1, byte, -1⟩
      | none => ⟨1, byte, -1⟩

/-! ## The kernel's part -/

/-- A byte under way, with the control data sent with it and the file that names. -/
structure Packet (φ : Type) where
  byte : UInt8
  rights : Option (Msghdr × φ)

namespace Packet

variable {φ : Type}

/-- `sendmsg`: the descriptor in the control data is looked up in the sender's table. -/
def sendmsg (t : Descriptors φ) (byte : UInt8) (msg : Msghdr) : Option (Packet φ) :=
  match msg.cmsgFirsthdr with
  | none => some ⟨byte, none⟩
  | some cmptr =>
      if msg.cmsgLenAt cmptr = cmsgLen sizeofInt ∧ msg.cmsgLevelAt cmptr = solSocket ∧
          msg.cmsgTypeAt cmptr = scmRights then
        (t.named (msg.cmsgDataAt cmptr)).map fun f => ⟨byte, some (msg, f)⟩
      else none

/-- `write` of one byte. -/
def write (byte : UInt8) : Packet φ := ⟨byte, none⟩

/-- `recvmsg` into an uninitialised control buffer: the data that was sent, with `newfd` for the
descriptor, or a `msg_controllen` of `0`. -/
def recvmsg (pkt : Packet φ) (uninit : Buffer) (newfd : BitVec 32) : RecvRet :=
  match pkt.rights with
  | none => .got pkt.byte { control := uninit, controllen := 0 }
  | some (msg, _) =>
      .got pkt.byte
        { control := overwrite uninit (msg.setCmsgData 0 newfd).control msg.controllen
          controllen := msg.controllen }

/-- The receiver's table after it. -/
def install (pkt : Packet φ) (t : Descriptors φ) (newfd : BitVec 32) : Descriptors φ :=
  match pkt.rights with
  | none => t
  | some (_, f) => t.install newfd.toNat f

end Packet

/-! ## A channel with its two ends -/

/-- A byte sent, with the file whose descriptor was passed along. -/
structure Command (φ : Type) where
  byte : UInt8
  file : Option φ
  deriving DecidableEq, Repr

/-- An `ipc_fd_read` that has returned, and what `recvfd` names right after it. -/
structure Reading (φ : Type) where
  result : IpcFdRead
  file : Option φ

/-- One direction of a channel, the descriptor tables of the two processes, and the variables the
reader passes to `ipc_fd_read`. `sent` and `readings` are history: no step reads them. -/
structure IpcLink (φ : Type) where
  sender : Descriptors φ
  receiver : Descriptors φ
  queue : List (Packet φ)
  c : UInt8
  recvfd : BitVec 32
  sent : List (Command φ)
  readings : List (Reading φ)

/-- What can happen to a channel. -/
inductive IpcAct (φ : Type) where
  /-- `ipc_fd_write(fd, &byte, 1, sendfd)`. -/
  | ipcFdWrite (uninit : Buffer) (byte : UInt8) (sendfd : BitVec 32)
  /-- `write(fd, &byte, 1)`. -/
  | write (byte : UInt8)
  /-- `ipc_fd_read(fd, &c, 1, &recvfd)`, where `newfd` is what a descriptor will be given. -/
  | ipcFdRead (uninit : Buffer) (newfd : BitVec 32)
  /-- The processes do something else: open and close files, assign to the variables. -/
  | other (sender receiver : Descriptors φ) (c : UInt8) (recvfd : BitVec 32)

namespace IpcLink

variable {φ : Type}

/-- One step. A read waits while nothing is under way. -/
def step (s : IpcLink φ) : IpcAct φ → Option (IpcLink φ)
  | .ipcFdWrite uninit byte sendfd =>
      match TcpServer.ipcFdWrite uninit sendfd with
      | none => none
      | some msg =>
          match Packet.sendmsg s.sender byte msg with
          -- it returned `-1`, and nothing was sent
          | none => some s
          | some pkt =>
              some { s with
                queue := s.queue ++ [pkt]
                sent := s.sent ++ [Command.mk byte (s.sender.named sendfd)] }
  | .write byte =>
      some { s with
        queue := s.queue ++ [Packet.write byte]
        sent := s.sent ++ [Command.mk byte none] }
  | .ipcFdRead uninit newfd =>
      match s.queue with
      | [] => none
      | pkt :: pkts =>
          if s.receiver.Unused newfd then
            let r := TcpServer.ipcFdRead (pkt.recvmsg uninit newfd) s.c s.recvfd
            let receiver := pkt.install s.receiver newfd
            some { s with
              receiver := receiver
              queue := pkts
              c := r.c
              recvfd := r.recvfd
              readings := s.readings ++ [Reading.mk r (receiver.named r.recvfd)] }
          else none
  | .other sender receiver c recvfd =>
      some { s with sender := sender, receiver := receiver, c := c, recvfd := recvfd }

/-- A channel nothing was sent on yet. The tables and the variables can hold anything. -/
structure Fresh (s : IpcLink φ) : Prop where
  queue : s.queue = []
  sent : s.sent = []
  readings : s.readings = []

/-- A channel with anything happening at its two ends. -/
def lts (φ : Type) : Lts (IpcLink φ) (IpcAct φ) where
  init := Fresh
  step := step

end IpcLink

end TcpServer
