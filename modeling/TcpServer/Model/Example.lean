import TcpServer.Lib.Strtol
import TcpServer.Model.Net

/-!
# The example server's command line

`examples/server/main.c` up to `tcp_server_dispatch`, and `net_is_iface_up`. The
three arguments of `tcp_server_init` come out of it, or a reason not to call it.

`argp_parse` is the system's: what it makes of `argv` is a parameter, the options
it hands to `parse_option` one after the other, with their arguments. What
`parse_option` does not know ends the process there, as the flags leave it to
`argp_parse` to report errors.
-/

namespace TcpServer

open CString Strtol

/-- `serverArgs_t`. -/
structure ServerArgs where
  iface : Option Str
  port : BitVec 32
  workers : BitVec 32
  deriving DecidableEq

/-- `{ 0 }`. -/
def ServerArgs.zero : ServerArgs := ⟨none, 0, 0⟩

/-- `ARGP_ERR_UNKNOWN`. -/
def argpErrUnknown : Int := 7

def ifaceKey : Int := 'i'.toNat
def portKey : Int := 'p'.toNat
def workersKey : Int := 'w'.toNat

/-- `parse_option`: what it returns, and what it leaves in `*arguments`. -/
def parseOption (key : Int) (arg : Str) (arguments : ServerArgs) : Int × ServerArgs :=
  if key = ifaceKey then (0, { arguments with iface := some arg })
  else if key = portKey then (0, { arguments with port := atoi arg.chars })
  else if key = workersKey then (0, { arguments with workers := atoi arg.chars })
  else (argpErrUnknown, arguments)

/-- `argp_err_exit_status`: `EX_USAGE`. -/
def argpErrExitStatus : Int := 64

/-- What a call of `argp_parse` comes to. -/
inductive ArgpEnd where
  | returned (ret : Int) (arguments : ServerArgs)
  /-- It has written a message and ended the process. -/
  | exited (status : Int)

/-- `argp_parse`: it goes on as long as `parse_option` knows what it is given. -/
def argpParse : List (Int × Str) → ServerArgs → ArgpEnd
  | [], arguments => .returned 0 arguments
  | (key, arg) :: calls, arguments =>
      match parseOption key arg arguments with
      | (ret, arguments) =>
          if ret = argpErrUnknown then .exited argpErrExitStatus
          else if ret ≠ 0 then .returned ret arguments
          else argpParse calls arguments

/-- `IFF_UP`. -/
def iffUp : BitVec 16 := 1

/-- What the example meets: what `tcp_server_init` does, and before it `net_is_iface_up`. -/
structure Machine extends Host where
  /-- `SIOCGIFFLAGS`: the flags of the interface of a name. -/
  flags : List Char → Option (BitVec 16)
  /-- What the name field of `net_is_iface_up` holds before it is cleared. -/
  upName : Nat → Char
  /-- What the `socket` of `net_is_iface_up` returns. -/
  upSocket : Option Nat

namespace Machine

/-- `ifr.ifr_flags` after the `ioctl`. Without an answer it is what `memset` left, also for the
descriptor `-1`. -/
def ifrFlags (m : Machine) (iface : Str) : BitVec 16 :=
  let ifr := (CharArray.uninit m.upName).memset 0 nul ifnamsiz
  let ifrName := ifr.strncpy 0 iface.chars (ifnamsiz - 1)
  match m.upSocket with
  | none => 0
  | some _ => (m.flags (strAt ifrName.mem 0 ifnamsiz)).getD 0

/-- `net_is_iface_up`. -/
def netIsIfaceUp (m : Machine) (iface : Str) : Bool := m.ifrFlags iface &&& iffUp ≠ 0

end Machine

/-- `TCP_SERVER_DFLT_IFACE`. -/
def tcpServerDfltIface : Str := ⟨['l', 'o'], by decide⟩

/-- `TCP_SERVER_DFLT_PORT`. -/
def tcpServerDfltPort : BitVec 32 := 9080

/-- `TCP_SERVER_DFLT_WORKERS_N`. -/
def tcpServerDfltWorkersN : BitVec 32 := 5

/-- `TCP_PORT_MIN`. -/
def tcpPortMin : Int := 1024

/-- `TCP_PORT_MAX`. -/
def tcpPortMax : Int := 49151

/-- What the example passes to `tcp_server_init`. -/
structure ServerParams where
  serverIface : Str
  serverPort : BitVec 32
  workersN : BitVec 32
  deriving DecidableEq

/-- What `main` of the example comes to. -/
inductive MainEnd where
  /-- `argp_parse` ended the process. -/
  | exited (status : Int)
  /-- `argp_parse` returned an error: `-1`. -/
  | usage
  /-- The interface is down: `-1`. -/
  | ifaceDown
  /-- `tcp_server_init` failed: `-1`. -/
  | initFailed
  /-- It dispatches the workers, runs and destroys the server, and returns `0`. -/
  | serving (params : ServerParams)
  deriving DecidableEq

/-- `main` of the example. -/
def exampleMain (m : Machine) (calls : List (Int × Str)) : MainEnd :=
  match argpParse calls .zero with
  | .exited status => .exited status
  | .returned ret args =>
      if ret ≠ 0 then .usage
      else
        let iface := args.iface.getD tcpServerDfltIface
        if m.netIsIfaceUp iface = false then .ifaceDown
        else
          let workers := if args.workers.toInt ≤ 0 then tcpServerDfltWorkersN else args.workers
          let port :=
            if args.port.toInt < tcpPortMin ∨ args.port.toInt > tcpPortMax then tcpServerDfltPort
            else args.port
          if (tcpServerInit (m.calls iface)).ret = -1 then .initFailed
          else .serving ⟨iface, port, workers⟩

end TcpServer
