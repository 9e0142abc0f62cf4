import TcpServer.Lib.Inet
import TcpServer.Model.Lifetime

/-!
# Finding the address to listen on

The part of `net.c` that `tcp_server_init` uses, and the endpoint it passes to
`bind`. The address makes a detour: the interface's is written as text, parsed,
kept as a number and as that text, and parsed again.

The name of the interface goes into a field of fixed size, the port into sixteen
bits. The structure with the field is a local variable that nobody clears. And
`bind` does not keep to every endpoint: given port `0`, it takes another.
-/

namespace TcpServer

open CString Inet

/-- `IP_NAME_STR_SIZE`. -/
def ipNameStrSize : Nat := 50

/-- `IFNAMSIZ`. -/
def ifnamsiz : Nat := 16

/-- `ip_parser_t`. -/
structure IpParser where
  ipv : Int
  dwords : Vector (BitVec 32) 4
  ipStr : CharArray

/-- `dwords[0]`, where an IPv4 address is. -/
def IpParser.dword (p : IpParser) : BitVec 32 := p.dwords.get ⟨0, by decide⟩

/-- `net_parse_ipv4`: what it returns, and what it leaves in `*ip_out`. -/
def netParseIpv4 (ipStr : Str) (ipOut : IpParser) : Int × IpParser :=
  match inetAton ipStr.chars with
  | some ipv4 =>
      (0,
        { ipv := 4
          dwords := ipOut.dwords.set 0 ipv4 (by decide)
          ipStr := ipOut.ipStr.strcpy 0 ipStr.chars })
  | none => (-1, { ipOut with ipv := 0 })

/-- The interfaces of a host, with their addresses. -/
structure Ifaces where
  addr : List Char → Option (BitVec 32)
  /-- A name fits into its field with a NUL behind it. -/
  short : ∀ name, ifnamsiz ≤ name.length → addr name = none

namespace Ifaces

/-- `SIOCGIFADDR`: the name is what stands in the whole field. -/
def ioctl (ifaces : Ifaces) (ifrName : CharArray) : Option (BitVec 32) :=
  ifaces.addr (strAt ifrName.mem 0 ifnamsiz)

end Ifaces

/-- What `inet_ntoa` returns. -/
def ntoaStr (a : BitVec 32) : Str := ⟨inetNtoa a, nul_notMem_inetNtoa a⟩

/-- What a call of `tcp_server_init` meets. -/
structure Host where
  ifaces : Ifaces
  /-- What `ifr.ifr_name` holds before anything is copied there. -/
  ifrName : Nat → Char
  /-- The local variable of `tcp_server_init`. -/
  sipv4 : IpParser
  /-- What the `socket` of `net_get_ipv4_from_iface` returns. -/
  probe : Option Nat
  socket : Option Nat
  setsockopt : Bool
  bind : Bool
  listen : Bool
  /-- The port that `bind` takes if it is given port `0`. -/
  ephemeral : BitVec 16
  ephemeral_ne_zero : ephemeral ≠ 0

namespace Host

/-- `net_get_ipv4_from_iface`, and how it went. -/
def netGetIpv4FromIface (h : Host) (iface : Str) : Lookup × IpParser :=
  match h.probe with
  | none => (.noSocket, h.sipv4)
  | some fd =>
      match h.ifaces.ioctl ((CharArray.uninit h.ifrName).strncpy 0 iface.chars (ifnamsiz - 1)) with
      | none => (.noAddress fd, h.sipv4)
      | some sinAddr =>
          let (ret, ipv4) := netParseIpv4 (ntoaStr sinAddr) h.sipv4
          (if ret = -1 then .noAddress fd else .found fd, ipv4)

/-- The calls `tcp_server_init` makes. -/
def calls (h : Host) (serverIface : Str) : InitCalls where
  lookup := (h.netGetIpv4FromIface serverIface).1
  socket := h.socket
  setsockopt := h.setsockopt
  bind := h.bind
  listen := h.listen

end Host

/-- `sin_addr` and `sin_port`, each as a number. -/
@[ext]
structure Endpoint where
  addr : BitVec 32
  port : BitVec 16
  deriving DecidableEq, Repr

/-- `htons(server_port)`: an `int` becomes a `uint16_t`. -/
def htons (serverPort : BitVec 32) : BitVec 16 := serverPort.setWidth 16

/-- What `tcp_server_init` passes to `bind`, if it gets there. -/
def Host.saddr (h : Host) (serverIface : Str) (serverPort : BitVec 32) : Endpoint where
  addr := inetAddr ((h.netGetIpv4FromIface serverIface).2.ipStr.text 0)
  port := htons serverPort

/-- Where a successful `bind` binds the socket. Port `0` stands for any that is free. -/
def Host.bound (h : Host) (serverIface : Str) (serverPort : BitVec 32) : Endpoint :=
  let saddr := h.saddr serverIface serverPort
  if saddr.port = 0 then { saddr with port := h.ephemeral } else saddr

end TcpServer
