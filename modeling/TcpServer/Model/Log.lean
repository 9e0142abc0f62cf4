import TcpServer.Lib.CString
import TcpServer.Lib.Numerals

/-!
# Logging

`log.c`: `log_msg` puts a line together in a buffer on the stack, in three calls
each of which begins where the one before says that it ended, and prints it.

What the stack holds is a parameter, and so is what the format expands to: any
characters, of any number.
-/

namespace TcpServer

open CString

/-- `log_lvl_t` without `LVLS`. -/
inductive LogLvl
  | trace
  | debug
  | info
  | warning
  | err
  | critical
  deriving DecidableEq, Repr

/-- `log_lvl_str`. -/
def logLvlStr : LogLvl → List Char
  | .trace => "TRACE".toList
  | .debug => "DEBUG".toList
  | .info => "INFO".toList
  | .warning => "WARNING".toList
  | .err => "ERROR".toList
  | .critical => "CRITICAL".toList

/-- `log_col_line`: what it prints. -/
def logColLine : LogLvl → List Char
  | .trace | .debug => "\x1b[0;37m".toList
  | .info => "\x1b[0;37m".toList
  | .warning => "\x1b[1;33m".toList
  | .err | .critical => "\x1b[1;31m".toList

/-- `log_col_line_reset`. -/
def logColLineReset : LogLvl → List Char
  | .info | .warning | .err | .critical => "\x1b[0m".toList
  | .trace | .debug => []

/-- What `strftime` leaves in `char timestamp[100]`. -/
structure Timestamp extends Str where
  fits : chars.length < 100

/-- `LOG_BUFFER_SIZE`. -/
def logBufferSize : Nat := 1024

/-- What `" [%s] %s "` expands to. -/
def headerTime (timestamp : Timestamp) (level : LogLvl) : List Char :=
  " [".toList ++ timestamp.chars ++ "] ".toList ++ logLvlStr level ++ [' ']

/-- What `"(%d) %s: "` expands to. -/
def headerPlace (line : BitVec 32) (moduleName : Str) : List Char :=
  '(' :: Numerals.decimal line.toInt ++ ") ".toList ++ moduleName.chars ++ ": ".toList

/-- What a call of `log_msg` leaves behind. -/
structure LogMsg where
  buffer : CharArray
  /-- The size that `vsnprintf` was given. -/
  room : BitVec 64
  stdout : List Char

/-- The end of `log_msg`, with the line in the buffer: it is printed, and cut short for a logging
service that there is not. -/
def logPrint (level : LogLvl) (room : BitVec 64) (buffer : CharArray) : LogMsg where
  buffer :=
    let bufferLen : Int := (buffer.text 0).length
    buffer.snprintf 0 (BitVec.ofInt 64 (bufferLen - 1)).toNat (buffer.text 0)
  room := room
  stdout := logColLine level ++ buffer.text 0 ++ ['\n'] ++ logColLineReset level

/-- `log_msg`. A sum of `int`s that no `int` can hold is not cut to one: the header is then past
the end of the buffer long since. -/
def logMsg (stack : Nat → Char) (timestamp : Timestamp) (moduleName : Str) (line : BitVec 32)
    (level : LogLvl) (message : List Char) : LogMsg :=
  let buffer := (CharArray.uninit stack).memset 0 nul logBufferSize
  let buffer := buffer.strcpy 0 (headerTime timestamp level)
  let size1 := printfResult (headerTime timestamp level)
  let buffer := buffer.strcpy size1.toNat (headerPlace line moduleName)
  let size := size1 + printfResult (headerPlace line moduleName)
  -- the difference becomes a `size_t`
  let room := BitVec.ofInt 64 (logBufferSize - size)
  logPrint level room (buffer.snprintf size.toNat room.toNat message)

end TcpServer
