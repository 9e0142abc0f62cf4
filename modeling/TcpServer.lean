import TcpServer.Lib.Lts
import TcpServer.Lib.Fair
import TcpServer.Model.WorkerPool
import TcpServer.Model.Server
import TcpServer.Model.Run
import TcpServer.Model.WorkerLoop
import TcpServer.Model.World
import TcpServer.Lib.Dispatcher
import TcpServer.Lib.Count
import TcpServer.Proof.Accounting
import TcpServer.Proof.Scan
import TcpServer.Proof.Phase
import TcpServer.Proof.Agreement
import TcpServer.Proof.Books
import TcpServer.Proof.ExactlyOnce
import TcpServer.Proof.Drain
import TcpServer.Proof.Rest
import TcpServer.Proof.Quiescence
import TcpServer.Proof.DeadWorker
import TcpServer.Proof.Reported
import TcpServer.Proof.StopFlag
import TcpServer.Proof.Terminate
import TcpServer.Proof.FullScan
import TcpServer.Proof.HandOff
import TcpServer.Proof.WorkerHistory
import TcpServer.Lib.Descriptors
import TcpServer.Model.Dispatch
import TcpServer.Proof.Dispatching
import TcpServer.Proof.Plumbing
import TcpServer.Lib.Ledger
import TcpServer.Model.Lifetime
import TcpServer.Proof.Leaks
import TcpServer.Lib.Bytes
import TcpServer.Model.IpcFd
import TcpServer.Proof.RoundTrip
import TcpServer.Model.Orphans
import TcpServer.Proof.Orphans
import TcpServer.Lib.Loop
import TcpServer.Lib.Numerals
import TcpServer.Model.Hexdump
import TcpServer.Proof.Hexdump
import TcpServer.Lib.CString
import TcpServer.Model.Log
import TcpServer.Proof.LogBuffer
import TcpServer.Lib.Inet
import TcpServer.Model.Net
import TcpServer.Proof.Address
import TcpServer.Model.FdSets
import TcpServer.Proof.SetRange
import TcpServer.Model.Stdout
import TcpServer.Proof.LogLines
import TcpServer.Lib.Progress
import TcpServer.Proof.Served
import TcpServer.Proof.Cost
import TcpServer.Model.Echo
import TcpServer.Proof.Callback
import TcpServer.Proof.Apart
import TcpServer.Proof.Echo
import TcpServer.Proof.Silence
import TcpServer.Proof.Answers
import TcpServer.Lib.Strtol
import TcpServer.Model.Example
import TcpServer.Proof.Example
import TcpServer.Proof.Launch
import TcpServer.Lib.Service
import TcpServer.Proof.Places
import TcpServer.Proof.Faults
import TcpServer.Proof.Deaths
import TcpServer.Proof.Starved
import TcpServer.Lib.Ownership
import TcpServer.Model.Memory
import TcpServer.Proof.Memory
import TcpServer.Proof.Shutdown
import TcpServer.Lib.Marks
import TcpServer.Model.Transcript
import TcpServer.Proof.Transcript
