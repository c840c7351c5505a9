import Pscal.Cache.Values
import Pscal.VM.DeniedEffects

/-!
# The journal of effects

`vm/vm_fx_policy.c`: `pscalFxRecordCall` and `pscalFxReplayCall`, the framed values of
`core/cache.c` that a record is made of, and the calls of `vm/vm.c` that record or replay.

* `FxMemory`, `FxArg`  the cells and memory streams that the arguments of a call lead to;
* `recordCall`  the pieces that a call writes to the journal, one after the other;
* `replayCall`  the reader of a record, which writes to the live cells;
* `recordRun`, `replayRun`  the calls of a run;
* `JournalStep`  what concurrent callers do to the journal.
-/

namespace Pscal

namespace Fx

open Wire Wire.Reader

/-! ## arguments -/

inductive FxCell (κ : Type) where
  | value (v : CacheValue κ)
  /-- a value of type `MEMORYSTREAM` -/
  | stream (ms : Option Nat)

structure FxMemory (κ : Type) where
  cells : Nat → FxCell κ
  streams : Nat → Bytes

section
variable {κ : Type}

def FxMemory.setCell (mem : FxMemory κ) (cell : Nat) (v : CacheValue κ) : FxMemory κ :=
  { mem with cells := fun i => if i = cell then .value v else mem.cells i }

def FxMemory.setStream (mem : FxMemory κ) (ms : Nat) (contents : Bytes) : FxMemory κ :=
  { mem with streams := fun i => if i = ms then contents else mem.streams i }

/-- an argument: the address of a cell, a memory stream, or a value that leads to neither -/
inductive FxArg where
  | pointer (cell : Nat)
  | stream (ms : Option Nat)
  | other
deriving DecidableEq, Repr

def FxCell.asStream : FxCell κ → Option Nat
  | .value _ => none
  | .stream ms => ms

def fxResolveMStreamArg (mem : FxMemory κ) : FxArg → Option Nat
  | .stream ms => ms
  | .pointer cell => (mem.cells cell).asStream
  | .other => none

structure FxCall where
  name : CString
  args : List FxArg
deriving DecidableEq, Repr

/-! ## recording -/

variable {σ : Type} (ops : CodecOps σ κ)

def fxLiveTypes : List VarType :=
  [.void, .thread, .task, .channel, .memorystream, .unicodeString, .widechar]

def valueIsGenericSerializable (v : CacheValue κ) : Bool :=
  v.type ∉ fxLiveTypes ∧ (writeValue ops v).isSome

/-- `pscalCacheWriteValueFramed`: a value that has no encoding is not written -/
def writeValueFramed (v : CacheValue κ) : List Bytes :=
  ((writeValue ops v).map bufLenPrefixedBytes).toList

def makeInt (n : Nat) : CacheValue κ := .scalar (Scalar.ofInt .int32 n)

def makeBoolean (b : Bool) : CacheValue κ := .scalar (Scalar.ofInt .boolean (if b then 1 else 0))

def makeString (text : CString) : CacheValue κ := .str .string (some { buffer := some text })

def writeRawBlob (data : Bytes) : List Bytes :=
  bufU32LE (UInt32.ofNat data.length) :: if data = [] then [] else [data]

inductive FxWriteback (κ : Type) where
  | generic (v : CacheValue κ)
  | mstream (contents : Bytes)

def fxWbKindMStream : Nat := 1

def FxWriteback.kind : FxWriteback κ → Nat
  | .generic _ => 0
  | .mstream _ => fxWbKindMStream

/-- The pre-pass over the arguments with their indices, with room for so many more writebacks
(`none`: the call cannot be substituted). -/
def fxWritebacks (mem : FxMemory κ) : Nat → List (FxArg × Nat) → Option (List (Nat × FxWriteback κ))
  | 0, _ | _ + 1, [] => some []
  | room + 1, (arg, i) :: args =>
    match fxResolveMStreamArg mem arg with
    | some ms => do
      let rest ← fxWritebacks mem room args
      return (i, .mstream (mem.streams ms)) :: rest
    | none =>
      match arg with
      | .pointer cell =>
        match mem.cells cell with
        | .stream _ => none
        | .value v =>
          if valueIsGenericSerializable ops v then do
            let rest ← fxWritebacks mem room args
            return (i, .generic v) :: rest
          else none
      | _ => fxWritebacks mem (room + 1) args

def fxMaxWritebacks : Nat := 256

def fxSubstitutable (call : FxCall) (mem : FxMemory κ) (result : Option (CacheValue κ)) :
    Option (List (Nat × FxWriteback κ)) :=
  if result.all (valueIsGenericSerializable ops) then
    fxWritebacks ops mem fxMaxWritebacks call.args.zipIdx
  else none

def writeWriteback (w : Nat × FxWriteback κ) : List Bytes :=
  writeValueFramed ops (makeInt w.1) ++ writeValueFramed ops (makeInt w.2.kind) ++
    match w.2 with
    | .generic v => writeValueFramed ops v
    | .mstream contents => writeRawBlob contents

/-- what a call writes, once it has left its result and the memory -/
def recordCall (call : FxCall) (mem : FxMemory κ) (result : Option (CacheValue κ)) : List Bytes :=
  writeValueFramed ops (makeString call.name) ++ writeValueFramed ops (makeInt call.args.length) ++
    match fxSubstitutable ops call mem result with
    | none => writeValueFramed ops (makeBoolean false)
    | some writebacks =>
      writeValueFramed ops (makeBoolean true) ++
        writeValueFramed ops (makeBoolean result.isSome) ++
        result.elim [] (writeValueFramed ops) ++
        writeValueFramed ops (makeInt writebacks.length) ++
        writebacks.flatMap (writeWriteback ops)

/-! ## replaying -/

/-- a reader of the journal, with the tables of the codec and the memory -/
abbrev FxReader (σ κ α : Type) := Reader (σ × FxMemory κ) α

def inFrame {α : Type} (frame : Bytes) (m : Reader σ α) : FxReader σ κ α := fun c s =>
  match m { rest := frame } s.1 with
  | (some a, { error := false, .. }, t) => (some a, c, (t, s.2))
  | (_, _, t) => (none, c, (t, s.2))

def fxFrameLimit : Nat := 64 * 1024 * 1024

def readValueFramed : FxReader σ κ (CacheValue κ) := do
  let len ← curVarint
  if ← hasError then fail
  if fxFrameLimit < len.toNat then fail
  let frame ← bytes len.toNat
  match frame with
  | none => fail
  | some frame => inFrame frame (readValue ops cacheMaxNesting)

def readRawBlob : FxReader σ κ Bytes := do
  let len ← curU32LE
  if ← hasError then fail
  if fxFrameLimit < len.toNat then fail
  let data ← bytes len.toNat
  match data with
  | none => fail
  | some data => return data

def scalarOfType (type : IntType) : CacheValue κ → Option Int
  | .scalar s => if s.type = type then some s.value else none
  | _ => none

def readFramedInt (type : IntType) : FxReader σ κ Int := do
  let v ← readValueFramed ops
  match scalarOfType type v with
  | none => fail
  | some n => return n

/-- the text of a framed `STRING` -/
def readFramedString : FxReader σ κ (Option CString) := do
  let v ← readValueFramed ops
  match v with
  | .str .string obj => return obj.bind StringObj.buffer
  | _ => fail

def fxArg (args : List FxArg) (idx : Int) : Option FxArg :=
  if 0 ≤ idx then args[idx.toNat]? else none

/-- an iteration of the loop over the writebacks -/
def readWriteback (args : List FxArg) : FxReader σ κ Unit := do
  let idx ← readFramedInt ops .int32
  let kind ← readFramedInt ops .int32
  if kind = fxWbKindMStream then
    let contents ← readRawBlob
    let s ← get
    match (fxArg args idx).bind (fxResolveMStreamArg s.2) with
    | none => fail
    | some ms => set (s.1, s.2.setStream ms contents)
  else
    let v ← readValueFramed ops
    let s ← get
    match fxArg args idx with
    | some (.pointer cell) => set (s.1, s.2.setCell cell v)
    | _ => fail

def readResult (present : Int) : FxReader σ κ (CacheValue κ) :=
  if present = 0 then return .nil else readValueFramed ops

def matchCall (call : FxCall) : FxReader σ κ Unit := do
  let name ← readFramedString ops
  let count ← readFramedInt ops .int32
  if ¬ (name.any fun n => strcasecmp n.bytes call.name.bytes) ∨ count ≠ call.args.length then fail

/-- `none`: the handler is to be invoked; it fails where the journal does not match -/
def replayCall (call : FxCall) : FxReader σ κ (Option (CacheValue κ)) := do
  matchCall ops call
  let substitutable ← readFramedInt ops .boolean
  if substitutable = 0 then
    return none
  let present ← readFramedInt ops .boolean
  let result ← readResult ops present
  let writebacks ← readFramedInt ops .int32
  let _ ← times (readWriteback ops call.args) writebacks.toNat
  return some result

/-! ## the calls of a run -/

def journaled (r : Registry) (kind : FrontendKind) (id : Nat) : Bool :=
  getVmBuiltinEffectMaskById r kind id ≠ fxPure ∧
    pscalFxBuiltinIsJournalExempt (getVmBuiltinNameById r id) = false

/-- a call of the first run, with the result of its handler and the memory it left -/
structure RecordedCall (κ : Type) where
  id : Nat
  call : FxCall
  result : CacheValue κ
  after : FxMemory κ

/-- a call of the second run, with the memory before it, and with the result and the memory that
its handler gives if it is invoked -/
structure ReplayedCall (κ : Type) where
  id : Nat
  call : FxCall
  before : FxMemory κ
  live : CacheValue κ × FxMemory κ

structure FxOutcome (κ : Type) where
  replayed : Bool
  result : CacheValue κ
  after : FxMemory κ

def ReplayedCall.invoke (c : ReplayedCall κ) : FxOutcome κ :=
  { replayed := false, result := c.live.1, after := c.live.2 }

def recordRun (isJournaled : Nat → Bool) (calls : List (RecordedCall κ)) : Bytes :=
  calls.flatMap fun c =>
    if isJournaled c.id then (recordCall ops c.call c.after (some c.result)).flatten else []

def replayStep (isJournaled : Nat → Bool) (c : ReplayedCall κ) : FxReader σ κ (FxOutcome κ) := do
  let s ← get
  set (s.1, c.before)
  if isJournaled c.id then
    match ← replayCall ops c.call with
    | none => return c.invoke
    | some result => return { replayed := true, result := result, after := (← get).2 }
  else
    return c.invoke

/-- the second run, which ends where a call does not match -/
def replayRun (isJournaled : Nat → Bool) :
    List (ReplayedCall κ) → FxReader σ κ (List (FxOutcome κ))
  | [] => return []
  | c :: cs => do
    let o ← replayStep ops isJournaled c
    let os ← replayRun isJournaled cs
    return o :: os

end

/-! ## concurrent callers -/

/-- The file, and the caller that holds `g_fx_journal_mutex`, with the pieces it still writes. -/
structure JournalState where
  file : Bytes
  holder : Option (Nat × List Bytes)
deriving DecidableEq, Repr

inductive JournalEvent where
  | lock (caller : Nat) (pieces : List Bytes)
  | write (caller : Nat)
  | unlock (caller : Nat)
deriving DecidableEq, Repr

inductive JournalStep : JournalState → JournalEvent → JournalState → Prop where
  | lock (file : Bytes) (caller : Nat) (pieces : List Bytes) :
      JournalStep { file := file, holder := none } (.lock caller pieces)
        { file := file, holder := some (caller, pieces) }
  | write (file : Bytes) (caller : Nat) (piece : Bytes) (pieces : List Bytes) :
      JournalStep { file := file, holder := some (caller, piece :: pieces) } (.write caller)
        { file := file ++ piece, holder := some (caller, pieces) }
  | unlock (file : Bytes) (caller : Nat) :
      JournalStep { file := file, holder := some (caller, []) } (.unlock caller)
        { file := file, holder := none }

/-- the records, in the order in which their callers got the lock -/
def lockedRecords (tr : List JournalEvent) : List (List Bytes) :=
  tr.filterMap fun e =>
    match e with
    | .lock _ pieces => some pieces
    | _ => none

end Fx

end Pscal
