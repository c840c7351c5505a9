import Mathlib
import Pscal.Lib.Transitions

/-!
# In-process pipes

`VprocInprocPipe` of `vproc.c`, its two ends, each behind a `struct pscal_fd` with a count of
references, and any number of calls on either.

* `VprocInprocPipe`  the ring, the flags and the counts;
* `PipeTurn`  what a call does from where it takes the lock to where it lets it go;
* `PipePhase`  where a call is between two such regions;
* `PipeWorld`, `PipeStep`  all of them, in any order.

A wait ends at any time: it is bounded, so no signal of the conditions is needed to end it.
-/

namespace Pscal

/-- the ends of a pipe, by `is_reader` -/
inductive VprocInprocEnd where
  | reader
  | writer
deriving DecidableEq, Repr

structure VprocInprocPipe where
  buf : List UInt8
  cap : Nat
  head : Nat
  tail : Nat
  count : Nat
  readClosed : Bool
  writeClosed : Bool
  waitReaders : Int
  waitWriters : Int
  activeOps : Int
  freed : Bool
  readers : Int
  writers : Int

inductive PipeOp where
  | read (size : Nat)
  | write (bytes : List UInt8)
  | poll (e : VprocInprocEnd)
deriving DecidableEq, Repr

def PipeOp.side : PipeOp → VprocInprocEnd
  | .read _ => .reader
  | .write _ => .writer
  | .poll e => e

/-- what a call returns: bytes, how many bytes were taken, events, or an error -/
inductive PipeResult where
  | bytes (out : List UInt8)
  | taken (size : Nat)
  | events (bits : Nat)
  | eagain
  | eintr
  | epipe
deriving DecidableEq, Repr

inductive PipeTurn where
  /-- the call returns; the memory is to be freed if `destroy` is set -/
  | done (result : PipeResult) (destroy : Bool) (pipe : VprocInprocPipe)
  | wait (pipe : VprocInprocPipe)

namespace PipeTurn

def result : PipeTurn → Option PipeResult
  | .done result _ _ => some result
  | .wait _ => none

def destroys : PipeTurn → Bool
  | .done _ destroy _ => destroy
  | .wait _ => false

def pipe : PipeTurn → VprocInprocPipe
  | .done _ _ pipe => pipe
  | .wait pipe => pipe

end PipeTurn

namespace VprocInprocPipe

/-- the pipe of `vprocCreateInprocPipe` -/
def create : VprocInprocPipe where
  buf := List.replicate 8192 0
  cap := 8192
  head := 0
  tail := 0
  count := 0
  readClosed := false
  writeClosed := false
  waitReaders := 0
  waitWriters := 0
  activeOps := 0
  freed := false
  readers := 1
  writers := 1

variable (pipe : VprocInprocPipe)

def vprocInprocPipeShouldDestroy : Bool × VprocInprocPipe :=
  if pipe.freed then (false, pipe)
  else
    let destroy := pipe.readClosed && pipe.writeClosed && decide (pipe.readers ≤ 0) &&
      decide (pipe.writers ≤ 0) && pipe.activeOps == 0 && pipe.waitReaders == 0 &&
      pipe.waitWriters == 0
    (destroy, if destroy then { pipe with freed := true } else pipe)

def leave (result : PipeResult) : PipeTurn :=
  let (destroy, pipe) :=
    { pipe with activeOps := pipe.activeOps - 1 }.vprocInprocPipeShouldDestroy
  .done result destroy pipe

/-- `count` more or fewer waiters at an end -/
def addWaiters (e : VprocInprocEnd) (count : Int) : VprocInprocPipe :=
  match e with
  | .reader => { pipe with waitReaders := pipe.waitReaders + count }
  | .writer => { pipe with waitWriters := pipe.waitWriters + count }

def copyOut : Nat → VprocInprocPipe → List UInt8 × VprocInprocPipe
  | 0, pipe => ([], pipe)
  | n + 1, pipe =>
    let byte := pipe.buf.getD pipe.head 0
    let (out, pipe) := copyOut n { pipe with head := (pipe.head + 1) % pipe.cap }
    (byte :: out, pipe)

def copyIn : List UInt8 → VprocInprocPipe → VprocInprocPipe
  | [], pipe => pipe
  | byte :: bytes, pipe =>
    copyIn bytes
      { pipe with buf := pipe.buf.set pipe.tail byte, tail := (pipe.tail + 1) % pipe.cap }

/-- `vprocInprocPipeRead` from the top of its loop -/
def readLoop (size : Nat) (nonblocking : Bool) : PipeTurn :=
  if pipe.count == 0 && !pipe.writeClosed then
    if nonblocking then pipe.leave .eagain
    else .wait (pipe.addWaiters .reader 1)
  else if pipe.count == 0 && pipe.writeClosed then pipe.leave (.bytes [])
  else
    let toCopy := min size pipe.count
    let (out, pipe) := pipe.copyOut toCopy
    { pipe with count := pipe.count - toCopy }.leave (.bytes out)

def vprocInprocPipeRead (size : Nat) (nonblocking : Bool) : PipeTurn :=
  { pipe with activeOps := pipe.activeOps + 1 }.readLoop size nonblocking

def readAgain (size : Nat) (nonblocking interrupted : Bool) : PipeTurn :=
  let pipe := pipe.addWaiters .reader (-1)
  if pipe.count == 0 && !pipe.writeClosed && interrupted then pipe.leave .eintr
  else pipe.readLoop size nonblocking

/-- `vprocInprocPipeWrite` from the top of its loop -/
def writeLoop (bytes : List UInt8) (nonblocking : Bool) : PipeTurn :=
  if pipe.count == pipe.cap && !pipe.readClosed then
    if nonblocking then pipe.leave .eagain
    else .wait (pipe.addWaiters .writer 1)
  else if pipe.readClosed then pipe.leave .epipe
  else
    let toCopy := min bytes.length (pipe.cap - pipe.count)
    let pipe := pipe.copyIn (bytes.take toCopy)
    { pipe with count := pipe.count + toCopy }.leave (.taken toCopy)

def vprocInprocPipeWrite (bytes : List UInt8) (nonblocking : Bool) : PipeTurn :=
  -- this exit does not ask whether to destroy
  if pipe.writeClosed then .done .epipe false pipe
  else { pipe with activeOps := pipe.activeOps + 1 }.writeLoop bytes nonblocking

def writeAgain (bytes : List UInt8) (nonblocking interrupted : Bool) : PipeTurn :=
  let pipe := pipe.addWaiters .writer (-1)
  if pipe.count == pipe.cap && !pipe.readClosed && interrupted then pipe.leave .eintr
  else pipe.writeLoop bytes nonblocking

/-- `POLLIN`, `POLLOUT`, `POLLERR` and `POLLHUP` are 1, 4, 8 and 16 -/
def vprocInprocPipePoll (e : VprocInprocEnd) : Nat :=
  match e with
  | .reader => (if 0 < pipe.count then 1 else 0) + if pipe.writeClosed then 16 else 0
  | .writer =>
    (if !pipe.readClosed && decide (pipe.count < pipe.cap) then 4 else 0) +
      if pipe.readClosed then 8 else 0

/-- `vprocInprocPipeWaitCancelled` -/
def waitCancelled (e : VprocInprocEnd) : Bool × VprocInprocPipe :=
  let pipe := pipe.addWaiters e (-1)
  { pipe with activeOps := pipe.activeOps - 1 }.vprocInprocPipeShouldDestroy

def vprocInprocPipeClose (e : VprocInprocEnd) : Bool × VprocInprocPipe :=
  let pipe := match e with
    | .reader =>
      { pipe with
        readClosed := true
        readers := if 0 < pipe.readers then pipe.readers - 1 else pipe.readers }
    | .writer =>
      { pipe with
        writeClosed := true
        writers := if 0 < pipe.writers then pipe.writers - 1 else pipe.writers }
  pipe.vprocInprocPipeShouldDestroy

end VprocInprocPipe

namespace PipeOp

def enter (pipe : VprocInprocPipe) (nonblocking : Bool) : PipeOp → PipeTurn
  | .read size => pipe.vprocInprocPipeRead size nonblocking
  | .write bytes => pipe.vprocInprocPipeWrite bytes nonblocking
  | .poll e => .done (.events (pipe.vprocInprocPipePoll e)) false pipe

def again (pipe : VprocInprocPipe) (nonblocking interrupted : Bool) : PipeOp → PipeTurn
  | .read size => pipe.readAgain size nonblocking interrupted
  | .write bytes => pipe.writeAgain bytes nonblocking interrupted
  | .poll e => .done (.events (pipe.vprocInprocPipePoll e)) false pipe

end PipeOp

/-! ## calls -/

inductive PipePhase where
  | away
  /-- with a reference, and outside of the pipe -/
  | holding (e : VprocInprocEnd)
  | calling (op : PipeOp)
  /-- in `vprocInprocPipeWait` -/
  | waiting (op : PipeOp)
  /-- after a region that set `freed`, before `vprocInprocPipeFree`, with the reference it keeps -/
  | freeing (next : Option VprocInprocEnd)
  /-- after the last reference, before the lock of `vprocInprocPipeClose` -/
  | closing (e : VprocInprocEnd)
deriving DecidableEq, Repr

/-- the phase after the memory has been freed, or was not to be -/
def PipePhase.after : Option VprocInprocEnd → PipePhase
  | none => .away
  | some e => .holding e

/-- `T` are the calls: a thread with two references at a time is two of them -/
structure PipeWorld (T : Type) where
  pipe : VprocInprocPipe
  /-- `refs` of the file of an end -/
  refs : VprocInprocEnd → Nat
  slots : VprocInprocEnd → Nat
  phase : T → PipePhase

inductive PipeEvent (T : Type) where
  | keep (e : VprocInprocEnd)
  | take (t : T) (e : VprocInprocEnd)
  | drop (t : T)
  | dropSlot (t : T) (e : VprocInprocEnd)
  | call (t : T) (op : PipeOp)
  /-- a locked region of a call, and what it returned unless it waits -/
  | turn (t : T) (op : PipeOp) (result : Option PipeResult)
  | cancel (t : T)
  | close (t : T) (e : VprocInprocEnd)
  | free (t : T)

namespace PipeWorld

variable {T : Type} [DecidableEq T] (s : PipeWorld T)

def start : PipeWorld T where
  pipe := .create
  refs := fun _ => 1
  slots := fun _ => 1
  phase := fun _ => .away

def setPipe (pipe : VprocInprocPipe) : PipeWorld T := { s with pipe := pipe }

def setPhase (t : T) (phase : PipePhase) : PipeWorld T :=
  { s with phase := Function.update s.phase t phase }

def setRefs (e : VprocInprocEnd) (n : Nat) : PipeWorld T :=
  { s with refs := Function.update s.refs e n }

def setSlots (e : VprocInprocEnd) (n : Nat) : PipeWorld T :=
  { s with slots := Function.update s.slots e n }

def pscalFdRetain (e : VprocInprocEnd) : PipeWorld T := s.setRefs e (s.refs e + 1)

/-- `pscal_fd_close`: the last reference goes on to close the end -/
def pscalFdClose (t : T) (e : VprocInprocEnd) : PipeWorld T :=
  (s.setRefs e (s.refs e - 1)).setPhase t (if s.refs e - 1 = 0 then .closing e else .away)

/-- a region that may have set `freed` -/
def settled (t : T) (next : Option VprocInprocEnd) (ended : Bool × VprocInprocPipe) : PipeWorld T :=
  (s.setPipe ended.2).setPhase t (if ended.1 then .freeing next else .after next)

def turned (t : T) (op : PipeOp) : PipeTurn → PipeWorld T
  | .done _ destroy pipe => s.settled t (some op.side) (destroy, pipe)
  | .wait pipe => (s.setPipe pipe).setPhase t (.waiting op)

end PipeWorld

section
variable {T : Type} [DecidableEq T]

inductive PipeStep : PipeWorld T → PipeEvent T → PipeWorld T → Prop where
  /-- a reference is copied to another table -/
  | keep {s} (e : VprocInprocEnd)
      (href : 0 < s.slots e ∨ ∃ t, s.phase t = .holding e) :
      PipeStep s (.keep e) ((s.pscalFdRetain e).setSlots e (s.slots e + 1))
  /-- a call takes a reference from a table -/
  | take {s} (t : T) (e : VprocInprocEnd) (hphase : s.phase t = .away) (hslot : 0 < s.slots e) :
      PipeStep s (.take t e) ((s.pscalFdRetain e).setPhase t (.holding e))
  | drop {s} (t : T) {e} (hphase : s.phase t = .holding e) :
      PipeStep s (.drop t) (s.pscalFdClose t e)
  | dropSlot {s} (t : T) (e : VprocInprocEnd) (hphase : s.phase t = .away)
      (hslot : 0 < s.slots e) :
      PipeStep s (.dropSlot t e) ((s.setSlots e (s.slots e - 1)).pscalFdClose t e)
  | call {s} (t : T) (op : PipeOp) (hphase : s.phase t = .holding op.side) :
      PipeStep s (.call t op) (s.setPhase t (.calling op))
  | enter {s} (t : T) {op} (nonblocking : Bool) (hphase : s.phase t = .calling op) :
      PipeStep s (.turn t op (op.enter s.pipe nonblocking).result)
        (s.turned t op (op.enter s.pipe nonblocking))
  | again {s} (t : T) {op} (nonblocking interrupted : Bool) (hphase : s.phase t = .waiting op) :
      PipeStep s (.turn t op (op.again s.pipe nonblocking interrupted).result)
        (s.turned t op (op.again s.pipe nonblocking interrupted))
  /-- the thread of a call is cancelled in its wait; its handlers drop the reference -/
  | cancel {s} (t : T) {op} (hphase : s.phase t = .waiting op) :
      PipeStep s (.cancel t) (s.settled t (some op.side) (s.pipe.waitCancelled op.side))
  | close {s} (t : T) {e} (hphase : s.phase t = .closing e) :
      PipeStep s (.close t e) (s.settled t none (s.pipe.vprocInprocPipeClose e))
  | free {s} (t : T) {next} (hphase : s.phase t = .freeing next) :
      PipeStep s (.free t) (s.setPhase t (.after next))

end

/-! ## what has been read and written -/

def PipeOp.out : PipeOp → Option PipeResult → List UInt8
  | .read _, some (.bytes out) => out
  | _, _ => []

def PipeOp.into : PipeOp → Option PipeResult → List UInt8
  | .write bytes, some (.taken size) => bytes.take size
  | _, _ => []

section
variable {T : Type}

namespace PipeEvent

def out : PipeEvent T → List UInt8
  | .turn _ op result => op.out result
  | _ => []

def into : PipeEvent T → List UInt8
  | .turn _ op result => op.into result
  | _ => []

def isFree : PipeEvent T → Bool
  | .free _ => true
  | _ => false

def locks : PipeEvent T → Bool
  | .turn _ _ _ | .cancel _ | .close _ _ => true
  | _ => false

end PipeEvent

def bytesRead (tr : List (PipeEvent T)) : List UInt8 := tr.flatMap PipeEvent.out

def bytesAccepted (tr : List (PipeEvent T)) : List UInt8 := tr.flatMap PipeEvent.into

def timesFreed (tr : List (PipeEvent T)) : Nat := tr.countP PipeEvent.isFree

def ClosedIn (tr : List (PipeEvent T)) (e : VprocInprocEnd) : Prop := ∃ t, .close t e ∈ tr

end

end Pscal
