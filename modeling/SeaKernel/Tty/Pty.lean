import SeaKernel.Kobj.CharBufferCall

/-!
# Pseudo terminals

A model of the reads and writes of `kernel/pty.c`. What `process_input` does for one character is
given as the new line and a list of effects, which `pty_write_master` performs one after the other.
The line is the part of `cbuf` below `cbuf_pos`. The wait list for status changes is left out.
-/

namespace SeaKernel.Tty

open CharBuffer

/-- `struct termios`, as far as it is looked at. -/
structure Termios where
  /-- `ICANON` -/
  icanon : Bool
  /-- `ECHO` -/
  echo : Bool
  /-- `ONLCR` -/
  onlcr : Bool
  vintr : UInt8
  verase : UInt8
  vsusp : UInt8
  veof : UInt8

inductive Signal where
  | sigint
  | sigtstp
  deriving DecidableEq

/-- What `process_input` does besides changing the line. -/
inductive Effect where
  /-- `__raise_action` -/
  | raise (signal : Signal)
  /-- `write_char` for each of the characters. -/
  | echo (chars : List UInt8)
  /-- `charbuffer_write` to the input buffer. -/
  | deliver (line : List UInt8)
  /-- The `eof` of the input buffer is set. -/
  | eof
  deriving DecidableEq

/-- `CBUF_SIZE` -/
def cbufSize : ℕ := 256

/-- A `char` equals a control character, which is an `unsigned char`. -/
def isCc (c cc : UInt8) : Bool := c < 128 ∧ c = cc

/-- The effect of echoing, if it is asked for. -/
def echoed (term : Termios) (chars : List UInt8) : List Effect :=
  if term.echo then [.echo chars] else []

/-- `process_input` -/
def processInput (term : Termios) (cbuf : List UInt8) (c : UInt8) : List UInt8 × List Effect :=
  if cbuf.length < cbufSize - 1 then
    if isCc c term.vintr then (cbuf, .raise .sigint :: echoed term [94, 67, 10])
    else if isCc c term.verase then
      if cbuf.length > 0 then (cbuf.dropLast, echoed term [8, 32, 8]) else (cbuf, [])
    else if isCc c term.vsusp then (cbuf, .raise .sigtstp :: echoed term [94, 90, 10])
    else if isCc c term.veof then
      if cbuf.length > 0 then ([], [.deliver cbuf]) else (cbuf, [.eof])
    else
      let c := if c = 27 then 94 else c
      let cbuf := cbuf ++ [c]
      if c = 10 then ([], echoed term [c] ++ [.deliver cbuf]) else (cbuf, echoed term [c])
  else (cbuf, [])

/-- `struct pty`, with the signals that were raised. -/
structure Pty where
  input : Buffer
  output : Buffer
  cbuf : List UInt8
  term : Termios
  raised : List Signal

namespace Pty

/-- `write_char`: the flags are `CHARBUFFER_DO_NONBLOCK`. -/
def writeChar (p : Pty) (c : UInt8) : Except Stop Pty := do
  let output ← if c = 10 ∧ p.term.onlcr then (p.output.write [13] 2).map Prod.fst
    else pure p.output
  (output.write [c] 2).map fun x => { p with output := x.1 }

def perform (p : Pty) : Effect → Except Stop Pty
  | .raise signal => .ok { p with raised := signal :: p.raised }
  | .echo chars => chars.foldlM writeChar p
  | .deliver line => (p.input.write line 0).map fun x => { p with input := x.1 }
  | .eof => .ok { p with input := { p.input with eof := true } }

/-- One round of the loop of `pty_write_master` in canonical mode. -/
def inputChar (p : Pty) (c : UInt8) : Except Stop Pty :=
  let (cbuf, effects) := processInput p.term p.cbuf c
  effects.foldlM perform { p with cbuf := cbuf }

/-- `pty_read_master` -/
def readMaster (p : Pty) (len : ℕ) (block : Bool) : Except Stop (Pty × Except Errno ℤ) :=
  (p.output.read len ((if block then 0 else 2) ||| 1)).map fun x => ({ p with output := x.1 }, x.2)

/-- `pty_read_slave`: the Boolean is a part of the flags. -/
def readSlave (p : Pty) (len : ℕ) (block : Bool) : Except Stop (Pty × Except Errno ℤ) :=
  (p.input.read len (block.toNat ||| 1)).map fun x => ({ p with input := x.1 }, x.2)

/-- `pty_write_master` -/
def writeMaster (p : Pty) (buf : List UInt8) (block : Bool) :
    Except Stop (Pty × Except Errno ℤ) := do
  if p.term.icanon then
    let p ← buf.foldlM inputChar p
    return (p, .ok (s64 buf.length))
  else
    let output ← if p.term.echo then (p.output.write buf (block.toNat ||| 1)).map Prod.fst
      else pure p.output
    (p.input.write buf (block.toNat ||| 1)).map fun x =>
      ({ p with input := x.1, output := output }, x.2)

/-- One round of the loop of `pty_write_slave`, on the output buffer. -/
def outputChar (onlcr block : Bool) (output : Buffer) (c : UInt8) : Except Stop Buffer := do
  let output ← if c = 10 ∧ onlcr then (output.write [13] (block.toNat ||| 1)).map Prod.fst
    else pure output
  (output.write [c] (block.toNat ||| 1)).map Prod.fst

/-- `pty_write_slave` -/
def writeSlave (p : Pty) (buf : List UInt8) (block : Bool) :
    Except Stop (Pty × Except Errno ℤ) :=
  (buf.foldlM (outputChar p.term.onlcr block) p.output).map fun output =>
    ({ p with output := output }, .ok (s64 buf.length))

end Pty

/-- A read or write through the file of a master or a slave. -/
inductive Call where
  | read (master : Bool) (len : ℕ)
  | write (master : Bool) (buf : List UInt8)

/-- `_pty_fops_read` and `_pty_fops_write`, for a file with or without `O_NONBLOCK`. -/
def Pty.call (p : Pty) (nonblock : Bool) : Call → Except Stop (Pty × Except Errno ℤ)
  | .read true len => p.readMaster len !nonblock
  | .read false len => p.readSlave len !nonblock
  | .write true buf => p.writeMaster buf !nonblock
  | .write false buf => p.writeSlave buf !nonblock

end SeaKernel.Tty
