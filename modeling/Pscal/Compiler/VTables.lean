import Pscal.Symbol.Table

/-!
# Virtual method tables

* `scanVirtualMethods`  the tables of the virtual methods in the procedure table;
* `mergeParentTable`  a table takes over what it lacks from the table of the parent class;
* `emitVTables`  the tables that are emitted into a chunk;
* `VTableTracker`  the classes whose tables a chunk has, across nested compilations.

`none` stands for a recursion that does not end.
-/

namespace Pscal

def noVTableEntry : Int := -1

/-- A symbol of the procedure table, aliases followed: `type_def->is_virtual`, `type_def->i_val`
and `bytecode_address`.  `hashTableLookup` finds lower-case names of at most 254 characters. -/
structure MethodEntry where
  name : String
  isVirtual : Bool
  slot : Int
  address : Int
  lower : toLowerString name = name := by decide +kernel
  short : name.length < maxSymbolLength := by decide +kernel

/-- an entry of the type table: the name of a class and the token of the class it extends -/
structure ClassType where
  name : String
  parent : Option String
deriving DecidableEq, Repr

structure VTableInput where
  /-- the symbols in the order of the bucket loops -/
  entries : List MethodEntry
  types : List ClassType

/-- `lookupType(name)->extra->token->value` -/
def VTableInput.parentName (input : VTableInput) (name : String) : Option String :=
  (input.types.find? fun t => strcasecmpEq t.name name).bind (·.parent)

def MethodEntry.className? (e : MethodEntry) : Option String :=
  if '.' ∈ e.name.toList then some (String.ofList (e.name.toList.takeWhile (· ≠ '.'))) else none

/-- `VTableInfo`; `capacity` is the length of `addrs` -/
structure VTableInfo where
  className : String
  methodCount : Nat := 0
  addrs : List Int := []
  merged : Bool := false
  hasUnresolved : Bool := false
deriving DecidableEq, Repr

def findVTableIndex (tables : List VTableInfo) (name : String) : Option Nat :=
  tables.findIdx? (·.className = name)

/-! ## the scan -/

/-- `addrs` with room for `capacity` entries -/
def growAddrs (addrs : List Int) (capacity : Nat) : List Int :=
  addrs ++ List.replicate (capacity - addrs.length) noVTableEntry

def VTableInfo.addMethod (vt : VTableInfo) (e : MethodEntry) : VTableInfo :=
  if e.slot < 0 then { vt with hasUnresolved := true }
  else
    { vt with
      addrs := (growAddrs vt.addrs (e.slot.toNat + 1)).set e.slot.toNat e.address
      hasUnresolved := vt.hasUnresolved || e.address ≤ 0
      methodCount := max vt.methodCount (e.slot.toNat + 1) }

/-- the class of a virtual method, unless its name is too long for the buffer -/
def MethodEntry.virtualOf (e : MethodEntry) : Option String :=
  if e.isVirtual then e.className?.filter (·.length < 256) else none

def addEntry (tables : List VTableInfo) (e : MethodEntry) : List VTableInfo :=
  match e.virtualOf with
  | none => tables
  | some cls =>
    match findVTableIndex tables cls with
    | some idx => tables.modify idx (·.addMethod e)
    | none => tables ++ [{ className := cls : VTableInfo }.addMethod e]

def scanVirtualMethods (entries : List MethodEntry) : List VTableInfo := entries.foldl addEntry []

/-! ## the merge -/

def inheritAddr (own : Int) (parent : Option Int) : Int :=
  if own = noVTableEntry then parent.getD own else own

def VTableInfo.inherit (vt parent : VTableInfo) : VTableInfo :=
  { vt with
    addrs := (growAddrs vt.addrs parent.methodCount).mapIdx fun j a =>
      inheritAddr a (parent.addrs.take parent.methodCount)[j]?
    methodCount := max vt.methodCount parent.methodCount
    hasUnresolved := vt.hasUnresolved || parent.hasUnresolved }

/-- `fuel` bounds the chain of parents -/
def mergeParentTable (input : VTableInput) : Nat → List VTableInfo → Nat → Option (List VTableInfo)
  | 0, _, _ => none
  | fuel + 1, tables, idx =>
    tables[idx]?.bind fun vt =>
      if vt.merged then some tables
      else match (input.parentName vt.className).bind (findVTableIndex tables) with
        | none => some (tables.set idx { vt with merged := true })
        | some pidx =>
          (mergeParentTable input fuel tables pidx).bind fun tables =>
            tables[pidx]?.map fun parent =>
              tables.set idx { vt.inherit parent with merged := true }

/-- a chain longer than the list of tables comes back to a table -/
def mergeTables (input : VTableInput) (tables : List VTableInfo) : Option (List VTableInfo) :=
  (List.range tables.length).foldlM (mergeParentTable input (tables.length + 1)) tables

/-! ## emission -/

def VTableInfo.emitted (vt : VTableInfo) : List Int :=
  (vt.addrs.take vt.methodCount).map fun a => if a = noVTableEntry then 0 else a

/-- the last loop: the tables, each with its class, and the classes that are then recorded -/
def emitTables : List VTableInfo → List String → List (String × List Int) × List String
  | [], classes => ([], classes)
  | vt :: tables, classes =>
    if vt.methodCount = 0 ∨ vt.hasUnresolved = true ∨ vt.className ∈ classes then
      emitTables tables classes
    else
      let rest := emitTables tables (classes ++ [vt.className])
      ((vt.className, vt.emitted) :: rest.1, rest.2)

def emitVTables (input : VTableInput) (classes : List String) :
    Option (List (String × List Int) × List String) :=
  (mergeTables input (scanVirtualMethods input.entries)).map fun tables =>
    emitTables tables classes

/-! ## the tracker -/

abbrev ChunkId := Nat

structure VTableTracker where
  /-- `tracked_vtable_chunk` -/
  chunk : Option ChunkId := none
  classes : List String := []
  stack : List (Option ChunkId × List String) := []
deriving DecidableEq, Repr

namespace VTableTracker

def initializeVTableTracker (t : VTableTracker) (chunk : ChunkId) : VTableTracker :=
  if t.stack ≠ [] then t else { t with chunk := some chunk, classes := [] }

def ensureVTableTrackerForChunk (t : VTableTracker) (chunk : ChunkId) : VTableTracker :=
  if t.chunk = some chunk then t
  else { t with chunk := some chunk, classes := if t.stack = [] then [] else t.classes }

/-- `vtableTrackerRecordClass` -/
def recordClass (classes : List String) (name : String) : List String :=
  if name ∈ classes then classes else classes ++ [name]

def pushVTableTrackerState (t : VTableTracker) (chunk : ChunkId) : VTableTracker :=
  { chunk := some chunk
    classes := if t.chunk = some chunk then t.classes else []
    stack := (t.chunk, t.classes) :: t.stack }

def popVTableTrackerState (t : VTableTracker) : VTableTracker :=
  match t.stack with
  | [] => {}
  | (parentChunk, parentClasses) :: stack =>
    if parentChunk = none ∧ t.chunk ≠ none then { t with stack := stack }
    else
      { chunk := parentChunk
        classes := if parentChunk = t.chunk then t.classes.foldl recordClass parentClasses
          else parentClasses
        stack := stack }

end VTableTracker

/-! ## compilations -/

/-- an emitted table: the chunk, what it was made from, the class and the addresses -/
structure EmittedVTable where
  chunk : ChunkId
  input : VTableInput
  className : String
  addrs : List Int

/-- The compilations so far.  `frames` are the active ones with their `vtable_state_pushed`;
`begun`, `log` and `calls` are the chunks, the tables and the calls of `emitVTables` of the run. -/
structure VTableRun where
  tracker : VTableTracker := {}
  frames : List (ChunkId × Bool) := []
  begun : List ChunkId := []
  log : List EmittedVTable := []
  calls : List (ChunkId × VTableInput) := []

/-- A compilation into a chunk begins, emits tables, ends; `compilerResetState` between two. -/
inductive VTableEvent where
  | enter (chunk : ChunkId)
  | emit (input : VTableInput)
  | leave
  | reset

/-- `none`: the event cannot come, or the emission does not end -/
def VTableRun.step (s : VTableRun) : VTableEvent → Option VTableRun
  | .enter chunk =>
    let pushed := s.tracker.chunk.isSome
    some { s with
      tracker := if pushed then s.tracker.pushVTableTrackerState chunk
        else s.tracker.initializeVTableTracker chunk
      frames := (chunk, pushed) :: s.frames
      begun := chunk :: s.begun }
  | .emit input =>
    s.frames.head?.bind fun (chunk, _) =>
      let tracker := s.tracker.ensureVTableTrackerForChunk chunk
      (emitVTables input tracker.classes).map fun (out, classes) =>
        { s with
          tracker := { tracker with classes := classes }
          log := s.log ++ out.map fun (name, addrs) => ⟨chunk, input, name, addrs⟩
          calls := (chunk, input) :: s.calls }
  | .leave =>
    match s.frames with
    | [] => none
    | (_, pushed) :: frames =>
      some { s with
        tracker := if pushed then s.tracker.popVTableTrackerState else s.tracker
        frames := frames }
  | .reset => if s.frames = [] then some { s with tracker := {} } else none

def vtableRun (events : List VTableEvent) : Option VTableRun := events.foldlM VTableRun.step {}

end Pscal
