import Mathlib
import Pscal.Lib.Transitions
import Pscal.Tty.Terminal

/-!
# The threads at a terminal

Any number of readers, of writers and of other calls on one side of a terminal, as `pscal_tty.c`
lets them run: `ttyFileRead`, `tty_input`, and the calls that change modes or hang up.

* `ttyReadTurn`  one turn of the loop of a read, under the lock;
* `TtyCall`  the calls that are one locked region;
* `ReaderPhase`, `WriterPhase`, `TtyWorld`  where the threads are;
* `TtyStep`  the steps of all of them, in any order.

A read is one step from one wait to the next.  A `tty_input` call holds the lock over many steps,
one for each byte, and lets it go where its echo may fill up (`letGo`), to flush before it waits
(`flush`), to wait, and at its end.
-/

namespace Pscal.Terminal

namespace Tty

variable (tty : Tty)

/-- `kSlaveTermios`, of what is kept here -/
def slaveTermios : Termios where
  iflags := 0x500
  lflags := 0x8a3b
  cc := fun i => [0x03, 0x1c, 0x7f, 0x15, 0x04, 0, 1, 0, 0x11, 0x13, 0x1a, 0, 0x12, 0x0f, 0x17,
    0x16, 0, 0, 0].getD i.val 0

def ttyCreate (isMaster : Bool) : Tty where
  isMaster := isMaster
  fgGroup := 0
  termios := if isMaster then { slaveTermios with iflags := 0, lflags := 0 } else slaveTermios
  packetMode := false
  peerHungUp := false
  packetStatus := 0
  hungUp := false
  sessionReader := false
  literalNext := false
  eofReads := 0
  readable := false
  writable := false
  queue := .empty

def ttyWakeEveryone : Tty := tty.broadcastReadable.broadcastWritable

def ttySetTermios (wanted : Termios) (flushInput : Bool) : Tty :=
  let side := if flushInput then tty.ttyQueueClear else tty
  let modeChanged := hasFlag (side.termios.lflags ^^^ wanted.lflags) Flag.icanon
  let timingChanged := side.termios.cc .vmin != wanted.cc .vmin ||
    side.termios.cc .vtime != wanted.cc .vtime
  let side := { side with termios := wanted }
  let side := if modeChanged then
      { side with
        queue := side.queue.ttyQueueRelabel (wanted.hasL Flag.icanon)
        literalNext := false }
    else side
  if modeChanged || timingChanged then side.ttyWakeEveryone else side

/-- the locked part of `ttyPacketEvent` -/
def ttyPacketEvent (set clear : UInt8) : Tty :=
  if tty.packetMode then
    { tty with packetStatus := (tty.packetStatus &&& ~~~clear) ||| set }.broadcastReadable
  else tty

/-- the locked part of `TIOCPKT_` -/
def setPacketMode (on : Bool) : Tty :=
  { tty with
    packetStatus := if on && !tty.packetMode then 0 else tty.packetStatus
    packetMode := on }

end Tty

/-- the calls that are one locked region, or one store -/
inductive TtyCall where
  /-- `TCFLSH_` of the input -/
  | flushInput
  | setTermios (wanted : Termios) (flushInput : Bool)
  /-- `pscalTtySetSessionReader` -/
  | setSessionReader
  /-- `ttyMarkHungUp`, `tty_hangup` -/
  | markHungUp
  /-- what `tty_hangup` of the slave does to the master -/
  | peerHangUp
  | packetEvent (set clear : UInt8)
  | setPacketMode (on : Bool)
  | setFgGroup (pgid : Int)
  /-- `pscalTtyTakeEofKey` -/
  | takeEofKey

namespace TtyCall

/-- the modes of a master are those of its slave, and packets are a master's -/
def admits (tty : Tty) : TtyCall → Bool
  | .setTermios _ _ => !tty.isMaster
  | .peerHangUp | .packetEvent _ _ | .setPacketMode _ => tty.isMaster
  | _ => true

def apply (tty : Tty) : TtyCall → Tty
  | .flushInput => tty.ttyQueueClear
  | .setTermios wanted flush => tty.ttySetTermios wanted flush
  | .setSessionReader => { tty with sessionReader := true }
  | .markHungUp => { tty with hungUp := true }.ttyWakeEveryone
  | .peerHangUp => { tty with peerHungUp := true }.ttyWakeEveryone
  | .packetEvent set clear => tty.ttyPacketEvent set clear
  | .setPacketMode on => tty.setPacketMode on
  | .setFgGroup pgid => { tty with fgGroup := pgid }
  | .takeEofKey => { tty with eofReads := tty.eofReads - 1 }

end TtyCall

/-! ## a read -/

inductive ReadTurn where
  /-- the read returns the bytes, or `_EAGAIN` -/
  | returned (out : Option (List UInt8)) (tty : Tty)
  | waiting (timed : Bool)

def ReadTurn.copied (out : List UInt8 × Tty) : ReadTurn := .returned (some out.1) out.2

def ReadTurn.orWait (tty : Tty) (nonblocking timed : Bool) : ReadTurn :=
  if nonblocking then .returned none tty else .waiting timed

/-- one turn of `ttyReadMasterLocked`; `size` is at least 1 -/
def ttyReadMasterTurn (tty : Tty) (size : Nat) (nonblocking : Bool) : ReadTurn :=
  if tty.ttyIsDown then .returned (some []) tty
  else if tty.packetMode && tty.packetStatus != 0 then
    .returned (some [tty.packetStatus]) { tty with packetStatus := 0 }
  else if 0 < tty.queue.used then
    if !tty.packetMode then .copied (ttyCopyRaw tty size)
    else
      let (out, tty) := if 1 < size then ttyCopyRaw tty (size - 1) else ([], tty)
      .copied (0 :: out, tty)
  else .orWait tty nonblocking false

/-- one turn of `ttyReadSlaveLocked` -/
def ttyReadSlaveTurn (tty : Tty) (size : Nat) (nonblocking : Bool) : ReadTurn :=
  let used := tty.queue.used
  if tty.ttyIsDown then .returned (some []) tty
  else if tty.ttyLineMode then
    if 0 < tty.queue.released then .copied (ttyCopyLine tty size)
    else .orWait tty nonblocking false
  else
    let minimum := (tty.termios.cc .vmin).toNat
    let tenths := (tty.termios.cc .vtime).toNat
    if minimum = 0 then
      if 0 < used then .copied (ttyCopyRaw tty size)
      else if tenths = 0 then .returned (some []) tty
      else .orWait tty nonblocking true
    else if min minimum size ≤ used then .copied (ttyCopyRaw tty size)
    else if nonblocking && decide (0 < used) then .copied (ttyCopyRaw tty size)
    else .orWait tty nonblocking (decide (0 < used) && decide (0 < tenths))

def ttyReadTurn (tty : Tty) (size : Nat) (nonblocking : Bool) : ReadTurn :=
  if tty.isMaster then ttyReadMasterTurn tty size nonblocking
  else ttyReadSlaveTurn tty size nonblocking

/-! ## the threads -/

inductive ReaderPhase where
  | idle
  /-- in a wait on `readable`, with a timer or without -/
  | parked (size : Nat) (timed : Bool)
  /-- the wait is over, and the lock still to be taken -/
  | woken (size : Nat)
  | timedOut (size : Nat)
deriving DecidableEq, Repr

/-- `input` is what the call has still to put in -/
inductive WriterPhase where
  | idle
  | working (input : List UInt8)
  /-- inside a byte in line mode, or just after it -/
  | editing (rest : Rest) (input : List UInt8)
  /-- in `ttyRunFlushLocked`, without the lock -/
  | flushing (rest : Rest) (input : List UInt8)
  /-- in a wait on `writable` -/
  | parked (input : List UInt8)
  /-- the wait is over, and the lock still to be taken -/
  | woken (input : List UInt8)
deriving DecidableEq, Repr

/-- what the readers know of the bytes put in out of line mode since the lock was taken -/
inductive Notice where
  | nothing
  /-- there are such bytes, and no broadcast -/
  | owed
  | told
deriving DecidableEq, Repr

/-- `notice` is for the specification only -/
structure TtyWorld (R W : Type) where
  tty : Tty
  holder : Option W
  notice : Notice
  reader : R → ReaderPhase
  writer : W → WriterPhase
  blocking : W → Bool
  collected : W → Collected

/-- a fresh `TtyInputRun` -/
def Collected.fresh : Collected := ⟨false, false, 0, 0⟩

/-- what a flush leaves; the signals may have to wait for the end of the call -/
def Collected.flushed (c : Collected) (withSignals : Bool) : Collected :=
  { c with
    wakePollers := false
    packetStatus := 0
    signals := if withSignals then 0 else c.signals }

namespace ReaderPhase

def wake : ReaderPhase → ReaderPhase
  | .parked size _ => .woken size
  | phase => phase

end ReaderPhase

namespace WriterPhase

def wake : WriterPhase → WriterPhase
  | .parked input => .woken input
  | phase => phase

end WriterPhase

namespace TtyWorld

variable {R W : Type} [DecidableEq R] [DecidableEq W] (s : TtyWorld R W)

/-- a terminal just made, and no thread at it -/
def start (isMaster : Bool) : TtyWorld R W where
  tty := .ttyCreate isMaster
  holder := none
  notice := .nothing
  reader := fun _ => .idle
  writer := fun _ => .idle
  blocking := fun _ => false
  collected := fun _ => .fresh

def setReader (r : R) (phase : ReaderPhase) : TtyWorld R W :=
  { s with reader := Function.update s.reader r phase }

def setWriter (w : W) (phase : WriterPhase) : TtyWorld R W :=
  { s with writer := Function.update s.writer w phase }

def setCollected (w : W) (c : Collected) : TtyWorld R W :=
  { s with collected := Function.update s.collected w c }

def setBlocking (w : W) (b : Bool) : TtyWorld R W :=
  { s with blocking := Function.update s.blocking w b }

def setNotice (n : Notice) : TtyWorld R W := { s with notice := n }

def take (w : W) : TtyWorld R W := { s with holder := some w, notice := .nothing }

def unlock : TtyWorld R W := { s with holder := none }

/-- the terminal has changed, and the broadcasts on the way reach those who are parked -/
def change (tty : Tty) : TtyWorld R W :=
  { s with
    tty := { tty with readable := false, writable := false }
    notice := if tty.readable then .told else s.notice
    reader := fun r => if tty.readable then (s.reader r).wake else s.reader r
    writer := fun w => if tty.writable then (s.writer w).wake else s.writer w }

/-- the `TtyInputRun` of a writer -/
def run (w : W) : TtyInputRun := { s.collected w with tty := s.tty }

def noteQueued (used : Nat) : TtyWorld R W :=
  if !s.tty.ttyLineMode && decide (used < s.tty.queue.used) && s.notice == .nothing then
    s.setNotice .owed
  else s

end TtyWorld

/-- a writer whose byte was refused tells the readers out of line mode, once -/
def announce (run : TtyInputRun) : TtyInputRun :=
  if !run.tty.ttyLineMode && !run.announced then { run.ttyLineEnded with announced := true }
  else run

/-- the end of a `tty_input` call -/
def inputEnd (tty : Tty) : Tty :=
  if !tty.ttyLineMode && decide (0 < tty.queue.used) then tty.broadcastReadable else tty

inductive TtyEvent (R W : Type) where
  | enter (w : W) (input : List UInt8) (blocking : Bool)
  | byte (w : W)
  | finish (w : W)
  | flush (w : W)
  | wait (w : W)
  | letGo (w : W)
  | retake (w : W)
  | carryOn (w : W)
  | resume (w : W)
  | read (r : R) (size : Nat) (nonblocking : Bool)
  | readMore (r : R)
  | timeout (r : R)
  | wakeReader (r : R)
  | wakeWriter (w : W)
  | cancelReader (r : R)
  | cancelWriter (w : W)
  | call (c : TtyCall)

section
variable {R W : Type} [DecidableEq R] [DecidableEq W]

def TtyWorld.turned (s : TtyWorld R W) (r : R) (size : Nat) : ReadTurn → TtyWorld R W
  | .returned _ tty => (s.setReader r .idle).change tty
  | .waiting timed => s.setReader r (.parked size timed)

inductive TtyStep : TtyWorld R W → TtyEvent R W → TtyWorld R W → Prop where
  | enter {s} (w : W) (input : List UInt8) (blocking : Bool) (hfree : s.holder = none)
      (hw : s.writer w = .idle) (hinput : input ≠ []) :
      TtyStep s (.enter w input blocking)
        ((((s.take w).setBlocking w blocking).setCollected w .fresh).setWriter w (.working input))
  | byte {s} (w : W) {b input run rest} (hw : s.holder = some w)
      (hphase : s.writer w = .working (b :: input))
      (htaken : ttyInputByte (s.run w) b = some (run, rest)) :
      TtyStep s (.byte w)
        ((((s.setCollected w run.toCollected).setWriter w
          (if s.tty.ttyLineMode then .editing rest input else .working input)).change
            run.tty).noteQueued s.tty.queue.used)
  /-- nothing is left, or the byte was refused and the call does not wait -/
  | finish {s} (w : W) {input} (hw : s.holder = some w) (hphase : s.writer w = .working input)
      (hend : ∀ b rest, input = b :: rest → ttyInputByte (s.run w) b = none ∧
        (s.blocking w = false ∨ s.tty.hungUp = true)) :
      TtyStep s (.finish w) (((s.setWriter w .idle).change (inputEnd s.tty)).unlock)
  | flush {s} (w : W) {b input} (hw : s.holder = some w)
      (hphase : s.writer w = .working (b :: input)) (hfull : ttyInputByte (s.run w) b = none)
      (hblocking : s.blocking w = true) (hup : s.tty.hungUp = false) :
      TtyStep s (.flush w)
        ((((s.setCollected w ((announce (s.run w)).toCollected.flushed true)).setWriter w
          (.flushing .done (b :: input))).change (announce (s.run w)).tty).unlock)
  /-- nothing is collected, and the call waits -/
  | wait {s} (w : W) {b input} (hw : s.holder = some w)
      (hphase : s.writer w = .working (b :: input)) (hfull : ttyInputByte (s.run w) b = none)
      (hblocking : s.blocking w = true) (hup : s.tty.hungUp = false)
      (hout : (announce (s.run w)).toCollected =
        (announce (s.run w)).toCollected.flushed true) :
      TtyStep s (.wait w) ((s.setWriter w (.parked (b :: input))).unlock)
  | letGo {s} (w : W) {rest input} (hw : s.holder = some w)
      (hphase : s.writer w = .editing rest input) :
      TtyStep s (.letGo w)
        (((s.setCollected w ((s.collected w).flushed false)).setWriter w
          (.flushing rest input)).unlock)
  | retake {s} (w : W) {rest input} (hfree : s.holder = none)
      (hphase : s.writer w = .flushing rest input) :
      TtyStep s (.retake w) ((s.take w).setWriter w (.editing rest input))
  /-- the next stretch of work on a byte, or the next byte -/
  | carryOn {s} (w : W) {rest input} (hw : s.holder = some w)
      (hphase : s.writer w = .editing rest input) :
      TtyStep s (.carryOn w)
        ((s.setWriter w (if rest = .done then .working input
          else .editing (restStep s.tty rest).2 input)).change (restStep s.tty rest).1)
  | resume {s} (w : W) {input} (hfree : s.holder = none) (hphase : s.writer w = .woken input) :
      TtyStep s (.resume w)
        (((s.take w).setCollected w { s.collected w with announced := false }).setWriter w
          (.working input))
  | read {s} (r : R) (size : Nat) (nonblocking : Bool) (hfree : s.holder = none)
      (hphase : s.reader r = .idle) (hsize : 0 < size) :
      TtyStep s (.read r size nonblocking)
        (s.turned r size (ttyReadTurn s.tty size nonblocking))
  | readMore {s} (r : R) {size} (hfree : s.holder = none) (hphase : s.reader r = .woken size) :
      TtyStep s (.readMore r) (s.turned r size (ttyReadTurn s.tty size false))
  | readTimedOut {s} (r : R) {size} (hfree : s.holder = none)
      (hphase : s.reader r = .timedOut size) :
      TtyStep s (.readMore r) ((s.setReader r .idle).change (ttyCopyRaw s.tty size).2)
  | timeout {s} (r : R) {size} (hphase : s.reader r = .parked size true) :
      TtyStep s (.timeout r) (s.setReader r (.timedOut size))
  | wakeReader {s} (r : R) {size timed} (hphase : s.reader r = .parked size timed) :
      TtyStep s (.wakeReader r) (s.setReader r (.woken size))
  | wakeWriter {s} (w : W) {input} (hphase : s.writer w = .parked input) :
      TtyStep s (.wakeWriter w) (s.setWriter w (.woken input))
  /-- a thread is cancelled in its wait, and lets go of the lock it comes back with -/
  | cancelReader {s} (r : R) {size timed} (hphase : s.reader r = .parked size timed) :
      TtyStep s (.cancelReader r) (s.setReader r .idle)
  | cancelWriter {s} (w : W) {input} (hphase : s.writer w = .parked input) :
      TtyStep s (.cancelWriter w) (s.setWriter w .idle)
  | call {s} (c : TtyCall) (hfree : s.holder = none) (hside : c.admits s.tty = true) :
      TtyStep s (.call c) (s.change (c.apply s.tty))
  /-- the store of `ttyForgetOwnerUnlocked`, without the lock -/
  | forgetOwner {s} : TtyStep s (.call (.setFgGroup 0)) (s.change ((TtyCall.setFgGroup 0).apply s.tty))

end

end Pscal.Terminal
