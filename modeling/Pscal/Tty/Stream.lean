import Pscal.Tty.Threads

/-!
# Writes to a terminal

`ttyWriteThrough` over the threads at the other side: a write goes there in chunks, each a
`tty_input` call, with output processing off.

* `fillChunk`  the bytes of one chunk;
* `WriteCall`, `PtyWorld` where each write is, and the side that it goes to;
* `PtyStep`  the steps of writes, reads and all else at that side, in any order;
* `bytesOut`, `bytesIn`, `callsOf`  what a run read, what it put in, and which writes have ended.
-/

namespace Pscal.Terminal

def ttyWriteChunk : Nat := 1024

/-- `TTY_OUTPUT_MAX`: the most that one byte can become -/
def ttyOutputMax : Nat := 8

/-- the loop that fills a chunk of which `outLen` bytes are used, and the bytes left -/
def fillChunk (outLen : Nat) : List UInt8 → List UInt8 × List UInt8
  | [] => ([], [])
  | byte :: bytes =>
    if outLen + ttyOutputMax ≤ ttyWriteChunk then
      let (chunk, rest) := fillChunk (outLen + 1) bytes
      (byte :: chunk, rest)
    else ([], byte :: bytes)

inductive WriteResult where
  | written (size : Nat)
  | eagain
  | eio
deriving DecidableEq, Repr

/-- where a write of `data` is; `rest` are the bytes for later chunks -/
inductive WriteCall where
  | idle
  | between (data rest : List UInt8) (blocking delivered : Bool)
  /-- in `tty_input` -/
  | inside (data chunk rest : List UInt8) (blocking delivered : Bool)
deriving DecidableEq, Repr

/-- the end of a write whose chunk was not taken whole: `taken` of its bytes were -/
def cutResult (data : List UInt8) (taken : Nat) (blocking delivered hungUp : Bool) : WriteResult :=
  if taken = 0 then
    if delivered then .written data.length else if blocking && hungUp then .eio else .eagain
  else .written data.length

structure PtyWorld (R W : Type) where
  /-- the side that is written to, with its readers -/
  side : TtyWorld R W
  call : W → WriteCall

inductive PtyEvent (R W : Type) where
  | start (w : W) (data : List UInt8) (blocking : Bool)
  | chunk (w : W)
  | back (w : W)
  /-- the write ends with bytes left that the other side did not take -/
  | cut (w : W) (data : List UInt8) (blocking : Bool) (result : WriteResult)
  | done (w : W) (data : List UInt8) (result : WriteResult)
  /-- the thread is cancelled in its wait -/
  | killed (w : W) (data : List UInt8)
  /-- a step at the other side: what a read returned, and who put in which byte -/
  | tty (ev : TtyEvent R W) (out : Option (List UInt8)) (took : List (W × UInt8))

def ReadTurn.out : ReadTurn → Option (List UInt8)
  | .returned out _ => out
  | .waiting _ => none

namespace TtyWorld

variable {R W : Type} (s : TtyWorld R W)

/-- a terminal as it is, and no thread at it -/
def startAt (tty : Tty) : TtyWorld R W where
  tty := tty
  holder := none
  notice := .nothing
  reader := fun _ => .idle
  writer := fun _ => .idle
  blocking := fun _ => false
  collected := fun _ => .fresh

/-- what a step returns to a reader -/
def readOut : TtyEvent R W → Option (List UInt8)
  | .read _ size nonblocking => (ttyReadTurn s.tty size nonblocking).out
  | .readMore r =>
    match s.reader r with
    | .woken size => (ttyReadTurn s.tty size false).out
    | .timedOut size => some (ttyCopyRaw s.tty size).1
    | _ => none
  | _ => none

def took : TtyEvent R W → List (W × UInt8)
  | .byte w =>
    match s.writer w with
    | .working (b :: _) => [(w, b)]
    | _ => []
  | _ => []

end TtyWorld

/-- the steps of `tty_input` that a write takes part in -/
def TtyEvent.ofWrite {R W : Type} : TtyEvent R W → Bool
  | .enter _ _ _ | .finish _ | .cancelWriter _ => true
  | _ => false

namespace PtyWorld

variable {R W : Type} [DecidableEq W] (s : PtyWorld R W)

def start (tty : Tty) : PtyWorld R W where
  side := .startAt tty
  call := fun _ => .idle

def setSide (side : TtyWorld R W) : PtyWorld R W := { s with side := side }

def setCall (w : W) (call : WriteCall) : PtyWorld R W :=
  { s with call := Function.update s.call w call }

end PtyWorld

section
variable {R W : Type} [DecidableEq R] [DecidableEq W]

inductive PtyStep : PtyWorld R W → PtyEvent R W → PtyWorld R W → Prop where
  | start {s} (w : W) (data : List UInt8) (blocking : Bool) (hw : s.call w = .idle) :
      PtyStep s (.start w data blocking) (s.setCall w (.between data data blocking false))
  | chunk {s} (w : W) {data rest blocking delivered side}
      (hw : s.call w = .between data rest blocking delivered) (hrest : rest ≠ [])
      (hstep : TtyStep s.side (.enter w (fillChunk 0 rest).1 blocking) side) :
      PtyStep s (.chunk w)
        ((s.setSide side).setCall w
          (.inside data (fillChunk 0 rest).1 (fillChunk 0 rest).2 blocking delivered))
  | back {s} (w : W) {data chunk rest blocking delivered side}
      (hw : s.call w = .inside data chunk rest blocking delivered)
      (hphase : s.side.writer w = .working [])
      (hstep : TtyStep s.side (.finish w) side) :
      PtyStep s (.back w) ((s.setSide side).setCall w (.between data rest blocking true))
  | cut {s} (w : W) {data chunk rest blocking delivered input side}
      (hw : s.call w = .inside data chunk rest blocking delivered)
      (hphase : s.side.writer w = .working input) (hinput : input ≠ [])
      (hstep : TtyStep s.side (.finish w) side) :
      PtyStep s
        (.cut w data blocking
          (cutResult data (chunk.length - input.length) blocking delivered s.side.tty.hungUp))
        ((s.setSide side).setCall w .idle)
  | done {s} (w : W) {data blocking delivered}
      (hw : s.call w = .between data [] blocking delivered) :
      PtyStep s (.done w data (.written data.length)) (s.setCall w .idle)
  | killed {s} (w : W) {data chunk rest blocking delivered side}
      (hw : s.call w = .inside data chunk rest blocking delivered)
      (hstep : TtyStep s.side (.cancelWriter w) side) :
      PtyStep s (.killed w data) ((s.setSide side).setCall w .idle)
  | tty {s} {ev side} (hwrite : ev.ofWrite = false) (hstep : TtyStep s.side ev side) :
      PtyStep s (.tty ev (s.side.readOut ev) (s.side.took ev)) (s.setSide side)

end

/-! ## what a run did -/

section
variable {R W : Type}

def bytesOut (tr : List (PtyEvent R W)) : List UInt8 :=
  tr.flatMap fun
    | .tty _ out _ => out.getD []
    | _ => []

def bytesIn (tr : List (PtyEvent R W)) : List (W × UInt8) :=
  tr.flatMap fun
    | .tty _ _ took => took
    | _ => []

/-- the bytes that `w` put in -/
def bytesBy [DecidableEq W] (w : W) (tr : List (PtyEvent R W)) : List UInt8 :=
  ((bytesIn tr).filter fun p => p.1 = w).map Prod.snd

/-- a write of `w` that ends: what it was given, and whether the whole of it was taken -/
def PtyEvent.ended [DecidableEq W] (w : W) : PtyEvent R W → Option (List UInt8 × Bool)
  | .cut w' data _ _ | .killed w' data => if w' = w then some (data, false) else none
  | .done w' data _ => if w' = w then some (data, true) else none
  | _ => none

/-- the writes of `w` that have ended -/
def callsOf [DecidableEq W] (w : W) (tr : List (PtyEvent R W)) : List (List UInt8 × Bool) :=
  tr.filterMap (PtyEvent.ended w)

end

/-! ## plain runs -/

/-- out of line mode, without packets, and with nothing done to a byte that comes in -/
structure Tty.Plain (tty : Tty) : Prop where
  raw : tty.ttyLineMode = false
  packet : tty.packetMode = false
  mapped : ∀ byte, ttyInputMapped tty.termios byte = byte
  doubles : ∀ byte, ttyInputDoubles tty.termios byte = false

def Tty.isSignalKey (tty : Tty) (byte : UInt8) : Bool :=
  !tty.isMaster && tty.termios.hasL Flag.isig &&
    (ttyKeySignalIndex tty.termios (ttyInputMapped tty.termios byte)).isSome

def TtyCall.plain : TtyCall → Bool
  | .flushInput | .setTermios _ _ | .setPacketMode _ => false
  | _ => true

def TtyEvent.PlainAt {R W : Type} (s : TtyWorld R W) : TtyEvent R W → Prop
  | .call c => c.plain = true
  | .byte w => ∀ b input, s.writer w = .working (b :: input) → s.tty.isSignalKey b = false
  | _ => True

def PtyEvent.Plain {R W : Type} (s : PtyWorld R W) : PtyEvent R W → Prop
  | .tty ev _ _ => ev.PlainAt s.side
  | _ => True

end Pscal.Terminal
