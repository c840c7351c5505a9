import Pscal.Core.Value
import Pscal.Lib.Ring
import Pscal.Lib.Transitions

/-!
# Channels

`vmChannelSend`, `vmChannelReceive`, `vmChannelTrySend`, `vmChannelTryReceive` and
`vmChannelClose` of `vm/vm.c`, called by any number of threads on one channel.

* `ChannelObj`  the ring buffer of `core/types.h`;
* `ChannelPhase`  where a thread is while it does not hold the lock of the channel;
* `ChannelPhase.critical`  what it does from one acquisition of the lock to the next release;
* `ChannelStep`  the steps of all threads, in any order.
-/

namespace Pscal

def makeNil : Value := .boxed .nil 0

structure ChannelObj where
  buf : List Value
  capacity : Nat
  count : Nat
  head : Nat
  closed : Bool

def createChannelObj (capacity : Nat) : ChannelObj where
  buf := List.replicate capacity makeNil
  capacity := capacity
  count := 0
  head := 0
  closed := false

def vmChannelMaxCapacity : Int := 2 ^ 24

/-- `vmBuiltinChannelCreate` -/
def channelCreate (capacity : Int) : Except String ChannelObj :=
  if capacity < 1 then .error "ChannelCreate requires capacity >= 1."
  else if capacity > vmChannelMaxCapacity then
    .error s!"ChannelCreate capacity {capacity} exceeds the maximum of {vmChannelMaxCapacity}."
  else .ok (createChannelObj capacity.toNat)

inductive VmChannelStatus where
  | ok | closed | interrupted | wouldBlock
deriving DecidableEq, Repr

/-- what `pthread_cond_timedwait` returns -/
inductive WaitStatus where
  | signalled | timedOut | eintr | failed
deriving DecidableEq, Repr

inductive ChannelCond where
  | notEmpty | notFull
deriving DecidableEq, Repr

/-- A thread that does not hold the lock: before a call takes it, in the poll for an interrupt, in
the timed wait, or woken from it.  `vm` says that the call comes with a VM to poll, `out` that it
has a place for the value. -/
inductive ChannelPhase where
  | idle
  | send (vm : Bool) (value : Value)
  | sendPoll (value : Value)
  | sendWait (vm : Bool) (value : Value)
  | sendWoken (vm : Bool) (value : Value) (status : WaitStatus)
  | receive (vm out : Bool)
  | receivePoll (out : Bool)
  | receiveWait (vm out : Bool)
  | receiveWoken (vm out : Bool) (status : WaitStatus)
  | trySend (value : Value)
  | tryReceive (out : Bool)
  | close

inductive ChannelEvent where
  | call (op : ChannelPhase)
  | wake
  /-- the lock is released for a poll or a wait -/
  | unlock
  | sent (value : Value)
  | sendFailed (value : Value) (status : VmChannelStatus)
  /-- the value is the caller's, or freed when it has no place for it -/
  | received (value : Value) (out : Bool)
  | receiveFailed (status : VmChannelStatus)
  | closed

inductive ChannelSignal where
  | nothing
  /-- `pthread_cond_signal` -/
  | one (cond : ChannelCond)
  /-- `pthread_cond_broadcast` on both -/
  | all

structure ChannelSection where
  channel : ChannelObj
  phase : ChannelPhase
  event : ChannelEvent
  signal : ChannelSignal := .nothing

/-! ## critical sections -/

namespace ChannelObj

variable (ch : ChannelObj)

def tail : Nat := (ch.head + ch.count) % ch.capacity

def push (value : Value) : ChannelObj :=
  { ch with buf := ch.buf.set ch.tail value, count := ch.count + 1 }

def front : Value := ch.buf.getD ch.head makeNil

def pop : ChannelObj :=
  { ch with
    buf := ch.buf.set ch.head makeNil, head := (ch.head + 1) % ch.capacity, count := ch.count - 1 }

def sendFail (value : Value) (status : VmChannelStatus) : ChannelSection :=
  { channel := ch, phase := .idle, event := .sendFailed value status }

def receiveFail (status : VmChannelStatus) : ChannelSection :=
  { channel := ch, phase := .idle, event := .receiveFailed status }

def deposit (value : Value) : ChannelSection :=
  { channel := ch.push value, phase := .idle, event := .sent value, signal := .one .notEmpty }

def withdraw (out : Bool) : ChannelSection :=
  { channel := ch.pop, phase := .idle, event := .received ch.front out, signal := .one .notFull }

/-- `vmChannelSend` from the test of its loop; without a VM there is no poll -/
def sendLoop (vm : Bool) (value : Value) : ChannelSection :=
  if ch.count ≥ ch.capacity ∧ ch.closed = false then
    { channel := ch, phase := if vm then .sendPoll value else .sendWait false value
      event := .unlock }
  else if ch.closed then ch.sendFail value .closed
  else ch.deposit value

def sendPolled (interrupted : Bool) (value : Value) : ChannelSection :=
  if interrupted then ch.sendFail value .interrupted
  else if ch.count < ch.capacity ∨ ch.closed = true then ch.sendLoop true value
  else { channel := ch, phase := .sendWait true value, event := .unlock }

def sendAwake (vm : Bool) (value : Value) (status : WaitStatus) : ChannelSection :=
  if status = .failed then ch.sendFail value .interrupted else ch.sendLoop vm value

def receiveLoop (vm out : Bool) : ChannelSection :=
  if ch.count = 0 ∧ ch.closed = false then
    { channel := ch, phase := if vm then .receivePoll out else .receiveWait false out
      event := .unlock }
  else if ch.count = 0 then ch.receiveFail .closed
  else ch.withdraw out

def receivePolled (interrupted out : Bool) : ChannelSection :=
  if interrupted then ch.receiveFail .interrupted
  else if ch.count > 0 ∨ ch.closed = true then ch.receiveLoop true out
  else { channel := ch, phase := .receiveWait true out, event := .unlock }

def receiveAwake (vm out : Bool) (status : WaitStatus) : ChannelSection :=
  if status = .failed then ch.receiveFail .interrupted else ch.receiveLoop vm out

/-- `vmChannelTrySend` -/
def trySend (value : Value) : ChannelSection :=
  if ch.closed then ch.sendFail value .closed
  else if ch.count ≥ ch.capacity then ch.sendFail value .wouldBlock
  else ch.deposit value

/-- `vmChannelTryReceive` -/
def tryReceive (out : Bool) : ChannelSection :=
  if ch.count = 0 then ch.receiveFail (if ch.closed then .closed else .wouldBlock)
  else ch.withdraw out

/-- `vmChannelClose` -/
def close : ChannelSection :=
  { channel := { ch with closed := true }, phase := .idle, event := .closed, signal := .all }

end ChannelObj

/-- The next critical section of a thread (`none`: it waits, or does nothing on the channel).
`interrupted` is what `vmConsumeInterruptRequest` answered to its poll. -/
def ChannelPhase.critical (ch : ChannelObj) (interrupted : Bool) :
    ChannelPhase → Option ChannelSection
  | .send vm value => some (ch.sendLoop vm value)
  | .sendPoll value => some (ch.sendPolled interrupted value)
  | .sendWoken vm value status => some (ch.sendAwake vm value status)
  | .receive vm out => some (ch.receiveLoop vm out)
  | .receivePoll out => some (ch.receivePolled interrupted out)
  | .receiveWoken vm out status => some (ch.receiveAwake vm out status)
  | .trySend value => some (ch.trySend value)
  | .tryReceive out => some (ch.tryReceive out)
  | .close => some ch.close
  | .idle | .sendWait _ _ | .receiveWait _ _ => none

/-! ## threads -/

def ChannelPhase.isCall : ChannelPhase → Bool
  | .send _ _ | .receive _ _ | .trySend _ | .tryReceive _ | .close => true
  | _ => false

def ChannelPhase.woken (status : WaitStatus) : ChannelPhase → ChannelPhase
  | .sendWait vm value => .sendWoken vm value status
  | .receiveWait vm out => .receiveWoken vm out status
  | p => p

def ChannelPhase.waitsOn : ChannelPhase → Option ChannelCond
  | .sendWait _ _ => some .notFull
  | .receiveWait _ _ => some .notEmpty
  | _ => none

inductive ChannelWakes : ChannelSignal → List ChannelPhase → List ChannelPhase → Prop where
  | nothing (l : List ChannelPhase) : ChannelWakes .nothing l l
  | nobody {cond : ChannelCond} {l : List ChannelPhase} (h : ∀ p ∈ l, p.waitsOn ≠ some cond) :
      ChannelWakes (.one cond) l l
  | one {cond : ChannelCond} {l : List ChannelPhase} {i : Nat} {p : ChannelPhase}
      (h : l[i]? = some p) (hwaits : p.waitsOn = some cond) :
      ChannelWakes (.one cond) l (l.set i (p.woken .signalled))
  | all (l : List ChannelPhase) : ChannelWakes .all l (l.map (ChannelPhase.woken .signalled))

structure ChannelWorld where
  channel : ChannelObj
  threads : List ChannelPhase

def ChannelWorld.start (channel : ChannelObj) (threads : Nat) : ChannelWorld :=
  { channel := channel, threads := List.replicate threads .idle }

/-- A step of one thread: it calls a function, its wait ends by itself, or it takes the lock and
runs to the next release. -/
inductive ChannelStep : ChannelWorld → ChannelEvent → ChannelWorld → Prop where
  | call {w : ChannelWorld} {i : Nat} {op : ChannelPhase} (h : w.threads[i]? = some .idle)
      (hop : op.isCall = true) :
      ChannelStep w (.call op) { w with threads := w.threads.set i op }
  | wake {w : ChannelWorld} {i : Nat} {p : ChannelPhase} (status : WaitStatus)
      (h : w.threads[i]? = some p) (hwaits : p.waitsOn ≠ none) :
      ChannelStep w .wake { w with threads := w.threads.set i (p.woken status) }
  | critical {w : ChannelWorld} {i : Nat} {p : ChannelPhase} {interrupted : Bool}
      {s : ChannelSection} {threads : List ChannelPhase} (h : w.threads[i]? = some p)
      (hsection : p.critical w.channel interrupted = some s)
      (hwakes : ChannelWakes s.signal (w.threads.set i s.phase) threads) :
      ChannelStep w s.event { channel := s.channel, threads := threads }

end Pscal
