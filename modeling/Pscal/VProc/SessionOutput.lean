import Mathlib
import Pscal.Lib.Transitions

/-!
# Session output

The part of `VProcSessionPtyEntry` of `vproc.c` that output goes through, its source, and any number
of callers that pause it, resume it and set its handler.

* `VProcSessionPtyEntry`  the handler, the backlog and the flags;
* `queueOutput`, `dispatchOutput`, `takePending`  what is done with them under the lock;
* `OutputSource`  where the source is: it is in the handler, or it was throttled;
* `OutputWorld`, `outputStep`  all of them, in any order; a handler is called outside the lock.

Memory may be short at every allocation.
-/

namespace Pscal

/-- a byte with its place among those that were dispatched -/
structure SentByte where
  place : Nat
  byte : UInt8
deriving DecidableEq, Repr

/-- `VPROC_SESSION_OUTPUT_BACKLOG_MAX` -/
@[irreducible] def sessionOutputBacklogMax : Nat := 2 * 1024 * 1024

structure VProcSessionPtyEntry where
  outputHandler : Option Nat := none
  pendingOutput : List SentByte := []
  pendingOutputCap : Nat := 0
  outputPaused : Bool := false
  outputBacklogSaturated : Bool := false
deriving DecidableEq, Repr

namespace VProcSessionPtyEntry

variable (entry : VProcSessionPtyEntry)

def Direct : Prop := entry.outputHandler.isSome = true ∧ entry.outputPaused = false

instance : Decidable entry.Direct := inferInstanceAs (Decidable (_ ∧ _))

end VProcSessionPtyEntry

/-! ## the backlog -/

def grownCapacity (cap needed : Nat) : Nat :=
  if 0 < cap ∧ cap < needed then
    if sessionOutputBacklogMax ≤ 2 * cap then sessionOutputBacklogMax
    else grownCapacity (2 * cap) needed
  else cap
  termination_by needed - cap

/-- `none`: `realloc` has failed -/
def ensurePendingCapacity (entry : VProcSessionPtyEntry) (needed : Nat) (memory : Bool) :
    Option VProcSessionPtyEntry :=
  let needed := min needed sessionOutputBacklogMax
  if needed ≤ entry.pendingOutputCap then some entry
  else if memory = true then
    let cap := if 0 < entry.pendingOutputCap then entry.pendingOutputCap else 4096
    some { entry with pendingOutputCap := grownCapacity cap needed }
  else none

def freshTail (data : List SentByte) : List SentByte :=
  data.drop (data.length - sessionOutputBacklogMax)

def queueOutput (entry : VProcSessionPtyEntry) (data : List SentByte) (memory : Bool) :
    Option VProcSessionPtyEntry :=
  if data = [] then some entry
  else if entry.outputBacklogSaturated = true then
    -- only the freshest chunk is kept
    if sessionOutputBacklogMax ≤ data.length then do
      let entry ← ensurePendingCapacity entry sessionOutputBacklogMax memory
      return { entry with pendingOutput := freshTail data }
    else do
      let entry ← ensurePendingCapacity entry data.length memory
      return { entry with pendingOutput := data }
  else if sessionOutputBacklogMax ≤ data.length then do
    let entry ← ensurePendingCapacity entry sessionOutputBacklogMax memory
    return { entry with pendingOutput := freshTail data, outputBacklogSaturated := true }
  else if sessionOutputBacklogMax < entry.pendingOutput.length + data.length then do
    let entry ← ensurePendingCapacity entry data.length memory
    return { entry with pendingOutput := data, outputBacklogSaturated := true }
  else do
    let entry ← ensurePendingCapacity entry (entry.pendingOutput.length + data.length) memory
    return { entry with pendingOutput := entry.pendingOutput ++ data }

/-- `vprocSessionPtyEnsureLocked`; `slot`: there is memory for a new entry -/
def ensureEntry (entry : Option VProcSessionPtyEntry) (slot : Bool) : Option VProcSessionPtyEntry :=
  match entry with
  | some entry => some entry
  | none => if slot = true then some {} else none

/-- `VProcOutputDispatchResult`; `handled` comes with the handler that is called once the lock is let
go -/
inductive OutputDispatch where
  | dropped
  | handled (handler : Nat)
  | queued
  | throttled
deriving DecidableEq, Repr

/-- what `vprocSessionDispatchOutput` does under the lock -/
def dispatchOutput (entry : Option VProcSessionPtyEntry) (data : List SentByte)
    (slot memory : Bool) : Option VProcSessionPtyEntry × OutputDispatch :=
  match ensureEntry entry slot with
  | none => (none, .dropped)
  | some entry =>
    match entry.outputHandler, entry.outputPaused with
    | some handler, false => (some entry, .handled handler)
    | _, _ =>
      match queueOutput entry data memory with
      | none => (some entry, .dropped)
      | some entry =>
        (some entry,
          if entry.outputPaused = true ∧ entry.outputBacklogSaturated = true then .throttled
          else .queued)

/-- the copy of the backlog, for the handler that is called once the lock is let go; `memory`: there
is some for the copy -/
def takePending (entry : VProcSessionPtyEntry) (memory : Bool) :
    VProcSessionPtyEntry × Option (Nat × List SentByte) :=
  match entry.outputHandler with
  | none => (entry, none)
  | some handler =>
    if entry.outputPaused = false ∧ entry.pendingOutput ≠ [] ∧ memory = true then
      ({ entry with pendingOutput := [], outputBacklogSaturated := false },
        some (handler, entry.pendingOutput))
    else (entry, none)

/-! ## the world -/

inductive OutputCaller where
  | ptyThread
  | emitOutput
deriving DecidableEq, Repr

inductive OutputSource where
  | idle
  | calling (handler : Nat) (data : List SentByte)
  /-- `backlog_throttled` of the thread -/
  | backoff
  /-- `vprocSessionEmitOutput` goes round its loop -/
  | retrying (data : List SentByte)
deriving DecidableEq, Repr

def OutputSource.handing : OutputSource → List SentByte
  | .calling _ data => data
  | _ => []

structure OutputWorld where
  entry : Option VProcSessionPtyEntry
  source : OutputSource
  /-- the copies of backlogs that callers hand over, with the handlers -/
  handovers : List (Nat × List SentByte)
  /-- what the source has dispatched, save what was dropped -/
  dispatched : List SentByte
  received : List SentByte
deriving DecidableEq, Repr

inductive OutputAction where
  | dispatch (caller : OutputCaller) (data : List UInt8) (slot memory : Bool)
  | resend (slot memory : Bool)
  | callHandler
  /-- the thread finds no reason to throttle -/
  | poll
  | setOutputHandler (handler : Option Nat) (slot memory : Bool)
  | setOutputPaused (paused memory : Bool)
  /-- the handler that a caller has taken the backlog for -/
  | handOver (k : Nat)
deriving DecidableEq, Repr

def numberFrom (place : Nat) (data : List UInt8) : List SentByte :=
  (data.zipIdx place).map fun p => ⟨p.2, p.1⟩

/-- the thread takes what was throttled as done -/
def OutputSource.after (caller : OutputCaller) (data : List SentByte) :
    OutputDispatch → OutputSource
  | .dropped => .idle
  | .handled handler => .calling handler data
  | .queued => .idle
  | .throttled =>
    match caller with
    | .ptyThread => .backoff
    | .emitOutput => .retrying data

namespace OutputWorld

variable (w : OutputWorld)

def queued : List SentByte := w.entry.elim [] VProcSessionPtyEntry.pendingOutput

def onItsWay : List SentByte := w.handovers.flatMap Prod.snd ++ w.source.handing

/-- the entry once a caller has changed it, and what it hands over -/
def settle (entry : VProcSessionPtyEntry) (memory : Bool) : OutputWorld :=
  let (entry, copy) := takePending entry memory
  { w with entry := some entry, handovers := w.handovers ++ copy.toList }

end OutputWorld

def outputStep (w : OutputWorld) : OutputAction → Option OutputWorld
  | .dispatch caller data slot memory =>
    if w.source = .idle ∧ data ≠ [] ∧ (caller = .ptyThread → data.length ≤ 8192) then
      let sent := numberFrom w.dispatched.length data
      let (entry, result) := dispatchOutput w.entry sent slot memory
      some
        { w with
          entry := entry
          source := .after caller sent result
          dispatched := if result = .dropped then w.dispatched else w.dispatched ++ sent }
    else none
  | .resend slot memory =>
    match w.source with
    | .retrying sent =>
      let (entry, result) := dispatchOutput w.entry sent slot memory
      some { w with entry := entry, source := .after .emitOutput sent result }
    | _ => none
  | .callHandler =>
    match w.source with
    | .calling _ data => some { w with source := .idle, received := w.received ++ data }
    | _ => none
  | .poll =>
    if w.source = .backoff ∧
        ¬ ∃ entry ∈ w.entry, entry.outputPaused = true ∧ entry.outputBacklogSaturated = true then
      some { w with source := .idle }
    else none
  | .setOutputHandler handler slot memory =>
    match ensureEntry w.entry slot with
    | none => some w
    | some entry => some (w.settle { entry with outputHandler := handler } memory)
  | .setOutputPaused paused memory =>
    match w.entry with
    | none => some w
    | some entry => some (w.settle { entry with outputPaused := paused } memory)
  | .handOver k =>
    match w.handovers[k]? with
    | some (_, data) =>
      some { w with handovers := w.handovers.eraseIdx k, received := w.received ++ data }
    | none => none

def OutputWorld.start (entry : Option VProcSessionPtyEntry) : OutputWorld where
  entry := entry.map fun e => { e with pendingOutput := [], outputBacklogSaturated := false }
  source := .idle
  handovers := []
  dispatched := []
  received := []

end Pscal
