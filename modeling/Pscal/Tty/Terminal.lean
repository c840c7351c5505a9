import Pscal.Tty.Queue

/-!
# A terminal and what is typed at it

The input half of `pscal_tty.c`: a byte in line mode, a byte out of it, and what a read copies.

* `Termios`, `Tty`, `TtyInputRun`  the modes, one side of a terminal, a `tty_input` call;
* `ttyInputPlainByte` … `ttyInputLineByte`  a byte in line mode;
* `ttyInputRawByte`  a byte for a master or a slave out of line mode;
* `ttyCopyLine`, `ttyCopyRaw`  a read in line mode and out of it.

The text of the echo is left out.  What it can do to the terminal is let go of the lock, when the
buffer of the echo is full; a byte that is not finished there leaves a `Rest`, and `restStep` is the
stretch of its work up to the next place where the lock may go.  A broadcast on one of the two
conditions is a flag that is set.
-/

namespace Pscal.Terminal

/-! ## modes -/

namespace Flag

def bit (n : UInt32) : UInt32 := 1 <<< n

/-- `ISIG_` and the other bits of `lflags` -/
def isig : UInt32 := bit 0
def icanon : UInt32 := bit 1
def echo : UInt32 := bit 3
def echoe : UInt32 := bit 4
def echok : UInt32 := bit 5
def noflsh : UInt32 := bit 7
def echoke : UInt32 := bit 11
def iexten : UInt32 := bit 15

/-- `PARMRK_` and the other bits of `iflags` -/
def parmrk : UInt32 := bit 3
def istrip : UInt32 := bit 5
def inlcr : UInt32 := bit 6
def igncr : UInt32 := bit 7
def icrnl : UInt32 := bit 8
def iuclc : UInt32 := bit 9
def iutf8 : UInt32 := bit 14

def flushread : UInt8 := 1
def flushwrite : UInt8 := 2

end Flag

/-- some bit of `mask` is set -/
def hasFlag (flags mask : UInt32) : Bool := flags &&& mask != 0

/-- an index into `cc` -/
abbrev CcIndex := Fin 19

namespace CcIndex

def vintr : CcIndex := 0
def vquit : CcIndex := 1
def verase : CcIndex := 2
def vkill : CcIndex := 3
def veof : CcIndex := 4
def vtime : CcIndex := 5
def vmin : CcIndex := 6
def vsusp : CcIndex := 10
def veol : CcIndex := 11
def vreprint : CcIndex := 12
def vwerase : CcIndex := 14
def vlnext : CcIndex := 15
def veol2 : CcIndex := 16

end CcIndex

/-- `struct termios_`, the parts that input depends on -/
structure Termios where
  iflags : UInt32
  lflags : UInt32
  cc : CcIndex → UInt8

namespace Termios

variable (t : Termios)

def hasI (mask : UInt32) : Bool := hasFlag t.iflags mask

def hasL (mask : UInt32) : Bool := hasFlag t.lflags mask

/-- `ttyByteIs`: a byte of 0 never matches -/
def ttyByteIs (byte : UInt8) (index : CcIndex) : Bool := byte != 0 && t.cc index == byte

end Termios

/-- `struct tty`, one side of a terminal -/
structure Tty where
  isMaster : Bool
  fgGroup : Int
  termios : Termios
  packetMode : Bool
  peerHungUp : Bool
  packetStatus : UInt8
  hungUp : Bool
  sessionReader : Bool
  literalNext : Bool
  eofReads : Nat
  /-- there was a broadcast on the condition of the readers -/
  readable : Bool
  /-- there was a broadcast on the condition of the writers -/
  writable : Bool
  queue : TtyQueue

namespace Tty

variable (tty : Tty)

def setQueue (q : TtyQueue) : Tty := { tty with queue := q }

def setLiteralNext (b : Bool) : Tty := { tty with literalNext := b }

def broadcastReadable : Tty := { tty with readable := true }

def broadcastWritable : Tty := { tty with writable := true }

def ttyLineMode : Bool := !tty.isMaster && tty.termios.hasL Flag.icanon

/-- `ttyIsDownLocked`: a hung-up terminal, or a master whose slave hung up -/
def ttyIsDown : Bool := tty.hungUp || tty.peerHungUp

def ttyQueueClear : Tty :=
  ((tty.setQueue tty.queue.clear).setLiteralNext false).broadcastWritable

end Tty

/-! ## bytes -/

def ttyByteIsUpper (byte : UInt8) : Bool :=
  (65 ≤ byte && byte ≤ 90) || (0xc0 ≤ byte && byte ≤ 0xde && byte != 0xd7)

def ttyByteIsLower (byte : UInt8) : Bool :=
  (97 ≤ byte && byte ≤ 122) || (0xdf ≤ byte && byte != 0xf7)

def ttyByteInWord (byte : UInt8) : Bool :=
  ttyByteIsUpper byte || ttyByteIsLower byte || (48 ≤ byte && byte ≤ 57) || byte == 95

/-- with `IUTF8_`, a byte in the middle of a character -/
def ttyByteContinues (t : Termios) (byte : UInt8) : Bool :=
  t.hasI Flag.iutf8 && (byte &&& 0xc0) == 0x80

/-- what a byte is before anything looks at it, in either mode -/
def ttyInputMapped (t : Termios) (byte : UInt8) : UInt8 :=
  let byte := if t.hasI Flag.istrip then byte &&& 0x7f else byte
  if t.hasI Flag.iuclc && t.hasL Flag.iexten && ttyByteIsUpper byte then byte + 0x20 else byte

/-- with `PARMRK_`, a real `0xff` comes twice -/
def ttyInputDoubles (t : Termios) (byte : UInt8) : Bool := t.hasI Flag.parmrk && byte == 0xff

/-- `ttyKeySignalIndex`: which of `SIGINT_`, `SIGQUIT_` and `SIGTSTP_` a key sends -/
def ttyKeySignalIndex (t : Termios) (byte : UInt8) : Option UInt32 :=
  if t.ttyByteIs byte .vintr then some 0
  else if t.ttyByteIs byte .vquit then some 1
  else if t.ttyByteIs byte .vsusp then some 2
  else none

/-- `'\r'` and `'\n'` as the modes have them come in -/
def ttyInputNewline (t : Termios) (byte : UInt8) : UInt8 :=
  if byte = 13 then if t.hasI Flag.icrnl then 10 else 13
  else if byte = 10 then if t.hasI Flag.inlcr then 13 else 10
  else byte

/-! ## the work of a `tty_input` call -/

/-- what a call has collected to do once the lock is let go -/
structure Collected where
  wakePollers : Bool
  /-- readers were told about the queue before this writer's wait -/
  announced : Bool
  signals : UInt32
  packetStatus : UInt8
deriving DecidableEq, Repr

structure TtyInputRun extends Collected where
  tty : Tty

namespace TtyInputRun

variable (run : TtyInputRun)

def setTty (tty : Tty) : TtyInputRun := { run with tty := tty }

def ttyLineEnded : TtyInputRun :=
  { run with tty := run.tty.broadcastReadable, wakePollers := true }

end TtyInputRun

/-- what is left of the work of a byte where the lock may be let go -/
inductive Rest where
  | done
  /-- the loop of `ttyInputKillKeyLocked` -/
  | killing
  /-- the loop of `ttyInputWordEraseKeyLocked` -/
  | wordErasing (inWord : Bool)
  /-- a byte that was made plain has been taken -/
  | literalTaken
deriving DecidableEq, Repr

/-! ## erasing -/

/-- the loop of `ttyLastCharSizeLocked`, which can go back over `left` more positions -/
def lastCharLoop (tty : Tty) : (left size : Nat) → UInt8 → Nat × UInt8
  | 0, size, byte => (size, byte)
  | left + 1, size, byte =>
    if ttyByteContinues tty.termios byte then
      lastCharLoop tty left (size + 1) (tty.queue.ttyQueueCell (tty.queue.used - (size + 1))).value
    else (size, byte)

/-- how many positions the last character of the line being typed takes, and its first byte -/
def ttyLastCharSize (tty : Tty) : Nat × UInt8 :=
  lastCharLoop tty (tty.queue.used - tty.queue.released - 1) 1
    (tty.queue.ttyQueueCell (tty.queue.used - 1)).value

def ttyEraseChar (tty : Tty) : Tty := tty.setQueue (tty.queue.drop (ttyLastCharSize tty).1)

def restStep (tty : Tty) : Rest → Tty × Rest
  | .done => (tty, .done)
  | .killing =>
    if tty.queue.ttyQueueHasUnfinished then (ttyEraseChar tty, .killing) else (tty, .done)
  | .wordErasing inWord =>
    if tty.queue.ttyQueueHasUnfinished then
      if ttyByteInWord (ttyLastCharSize tty).2 then (ttyEraseChar tty, .wordErasing true)
      else if inWord then (tty, .done)
      else (ttyEraseChar tty, .wordErasing inWord)
    else (tty, .done)
  | .literalTaken => (tty.setLiteralNext false, .done)

def ttyInputEraseKey (tty : Tty) : Tty :=
  if tty.queue.ttyQueueHasUnfinished then ttyEraseChar tty else tty

/-- with the three flags for rubbing out, the characters of the line go one by one -/
def ttyInputKillKey (tty : Tty) : Tty × Rest :=
  if !tty.queue.ttyQueueHasUnfinished then (tty, .done)
  else
    let l := tty.termios.hasL
    if l Flag.echo && (l Flag.echoe && l Flag.echok && l Flag.echoke) then (tty, .killing)
    else (tty.setQueue (tty.queue.drop (tty.queue.used - tty.queue.released)), .done)

/-! ## a byte in line mode -/

/-- `ttyMakeRoomForLineEndLocked`; `none` is its false -/
def ttyMakeRoomForLineEnd (tty : Tty) : Option Tty :=
  if tty.queue.used < ttyBufSize then some tty
  else if 0 < tty.queue.released then none
  else some (tty.setQueue tty.queue.ttyQueueDropLast)

def ttySignalKey (run : TtyInputRun) (signalIndex : UInt32) : TtyInputRun :=
  if run.tty.fgGroup = 0 then run
  else
    let run := if run.tty.termios.hasL Flag.noflsh then run else
      { run with
        tty := run.tty.ttyQueueClear
        packetStatus := run.packetStatus ||| (Flag.flushread ||| Flag.flushwrite) }
    { run with signals := run.signals ||| (1 <<< signalIndex) }

/-- the queue with a plain byte put in, twice where it has to be and `room` says there is room -/
def pushDoubled (t : Termios) (q : TtyQueue) (byte : UInt8) (room : TtyQueue → Bool) : TtyQueue :=
  let q := q.ttyQueuePush byte .byte
  if ttyInputDoubles t byte && room q then q.ttyQueuePush byte .byte else q

/-- a byte with no meaning in line mode; `none` if it has to wait for room.  One that would leave
no position for the end of its line is dropped. -/
def ttyInputPlainByte (run : TtyInputRun) (byte : UInt8) : Option TtyInputRun :=
  let q := run.tty.queue
  if ttyBufSize ≤ q.used + 1 && q.released == 0 then some run
  else if ttyBufSize ≤ q.used + 1 && q.used == ttyBufSize then none
  else
    some (run.setTty (run.tty.setQueue
      (pushDoubled run.tty.termios q byte fun q => decide (q.used + 1 < ttyBufSize))))

/-- a byte that finishes a line, or the mark of the end-of-file key -/
def ttyInputLineEnd (run : TtyInputRun) (byte : UInt8) (kind : CellKind) : Option TtyInputRun :=
  (ttyMakeRoomForLineEnd run.tty).map fun tty =>
    (run.setTty (tty.setQueue (tty.queue.ttyQueuePush byte kind))).ttyLineEnded

def ttyInputReaderKey (run : TtyInputRun) (byte : UInt8) : Option TtyInputRun :=
  let run :=
    if run.tty.termios.hasL Flag.noflsh then run else run.setTty run.tty.ttyQueueClear
  ttyInputLineEnd run byte .lineEnd

/-- the editing keys; `none` if `byte` is not one -/
def ttyInputEditingKey (tty : Tty) (byte : UInt8) : Option (Tty × Rest) :=
  let t := tty.termios
  let extended := t.hasL Flag.iexten
  if t.ttyByteIs byte .verase then some (ttyInputEraseKey tty, .done)
  else if t.ttyByteIs byte .vkill then some (ttyInputKillKey tty)
  else if extended && t.ttyByteIs byte .vwerase then some (tty, .wordErasing false)
  else if extended && t.hasL Flag.echo && t.ttyByteIs byte .vreprint then some (tty, .done)
  else if extended && t.ttyByteIs byte .vlnext then some (tty.setLiteralNext true, .done)
  else none

/-- a byte that is no editing key -/
def ttyInputOtherByte (run : TtyInputRun) (byte : UInt8) : Option TtyInputRun :=
  let t := run.tty.termios
  if t.ttyByteIs byte .veof then ttyInputLineEnd run 0 .eofMark
  else if byte == 10 || t.ttyByteIs byte .veol ||
      (t.hasL Flag.iexten && t.ttyByteIs byte .veol2) then
    ttyInputLineEnd run byte .lineEnd
  else if (t.ttyByteIs byte .vintr || t.ttyByteIs byte .vsusp) && run.tty.sessionReader &&
      !t.hasL Flag.isig then
    ttyInputReaderKey run byte
  else
    match if t.hasL Flag.isig then ttyKeySignalIndex t byte else none with
    | some signalIndex => some (ttySignalKey run signalIndex)
    | none => ttyInputPlainByte run byte

/-- `ttyInputLineByteLocked`; `none` if the byte has to wait for room -/
def ttyInputLineByte (run : TtyInputRun) (byte : UInt8) : Option (TtyInputRun × Rest) :=
  let t := run.tty.termios
  let byte := ttyInputMapped t byte
  if run.tty.literalNext then (ttyInputPlainByte run byte).map (·, .literalTaken)
  else if byte == 13 && t.hasI Flag.igncr then some (run, .done)
  else
    let byte := ttyInputNewline t byte
    match ttyInputEditingKey run.tty byte with
    | some (tty, rest) => some (run.setTty tty, rest)
    | none => (ttyInputOtherByte run byte).map (·, .done)

/-! ## a byte out of line mode -/

/-- `ttyInputRawByteLocked`; `none` if the byte has to wait for room -/
def ttyInputRawByte (run : TtyInputRun) (byte : UInt8) : Option TtyInputRun :=
  let t := run.tty.termios
  let byte := ttyInputMapped t byte
  match if !run.tty.isMaster && t.hasL Flag.isig then ttyKeySignalIndex t byte else none with
  | some signalIndex => some (ttySignalKey run signalIndex)
  | none =>
    if run.tty.queue.used = ttyBufSize then none
    else
      let run := if run.tty.queue.used = 0 then run.ttyLineEnded else run
      some (run.setTty (run.tty.setQueue
        (pushDoubled t run.tty.queue byte fun q => decide (q.used < ttyBufSize))))

/-- one byte in the loop of `tty_input` -/
def ttyInputByte (run : TtyInputRun) (byte : UInt8) : Option (TtyInputRun × Rest) :=
  if run.tty.ttyLineMode then ttyInputLineByte run byte
  else (ttyInputRawByte run byte).map (·, .done)

/-! ## copying for a read -/

/-- the bytes copied, whether the end of a line was among them, and the queue left -/
def copyLineLoop : Nat → TtyQueue → List UInt8 × Bool × TtyQueue
  | 0, q => ([], false, q)
  | size + 1, q =>
    if 0 < q.used && !q.ttyQueueHeadIsMark then
      let cell := q.ttyQueueCell 0
      if cell.kind = .lineEnd then ([cell.value], true, q.ttyQueuePop)
      else
        let (out, lineEnded, q') := copyLineLoop size q.ttyQueuePop
        (cell.value :: out, lineEnded, q')
    else ([], false, q)

/-- `ttyCopyLineLocked`: at most one line -/
def ttyCopyLine (tty : Tty) (size : Nat) : List UInt8 × Tty :=
  let (out, lineEnded, q) := copyLineLoop size tty.queue
  let tty := if out = [] then { tty with eofReads := tty.eofReads + 1 } else tty
  let q := if q.ttyQueueHeadIsMark && !lineEnded then q.ttyQueuePop else q
  (out, (tty.setQueue q).broadcastWritable)

def copyRawLoop : Nat → TtyQueue → List UInt8 × TtyQueue
  | 0, q => ([], q)
  | size + 1, q =>
    if 0 < q.used then
      let (out, q') := copyRawLoop size q.ttyQueuePop
      ((q.ttyQueueCell 0).value :: out, q')
    else ([], q)

/-- `ttyCopyRawLocked`: whatever is there -/
def ttyCopyRaw (tty : Tty) (size : Nat) : List UInt8 × Tty :=
  let (out, q) := copyRawLoop size tty.queue
  let tty := tty.setQueue q
  (out, if out = [] then tty else tty.broadcastWritable)

end Pscal.Terminal
