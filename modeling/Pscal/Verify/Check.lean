import Mathlib
import Pscal.Bytecode.Chunk
import Pscal.Lib.Worklist
import Pscal.Symbol.Table

/-!
# The load-time verifier

`bytecode_verify.c`: the linear pass over the instruction stream, the pass over the operands,
the upvalue descriptors, and the abstract stack-depth walk from every entry.  A check that fails
gives the text `vfail` writes.  Allocations do not fail here; a failed one only rejects.
-/

namespace Pscal

open BytecodeChunk

inductive BuiltinRoutineType where
  | none | procedure | function
deriving DecidableEq, Repr

/-- what the verifier asks of the process it runs in: the builtin registry and
`pscalVmStackCeilingValues` -/
structure VmLimits where
  getBuiltinType : String → BuiltinRoutineType
  stackCeiling : Nat

/-- `VCtx`; `starts` lists the offsets with `boundary[pc]`, in order -/
structure VCtx where
  chunk : BytecodeChunk
  procedures : Procedures
  limits : VmLimits
  starts : List Nat

/-- `ctx->boundary[pc]` -/
def VCtx.boundary (ctx : VCtx) (pc : Nat) : Bool := ctx.starts.contains pc

abbrev Check := Except String

def checkConstIndex (ctx : VCtx) (idx pc : Nat) (what : String) : Check Unit :=
  if ctx.chunk.constants.length ≤ idx then
    .error <| s!"pc {pc}: {what} constant index {idx} out of range (pool size " ++
      s!"{ctx.chunk.constants.length})"
  else .ok ()

def checkCacheIndex (ctx : VCtx) (idx pc : Nat) (what : String) : Check Unit :=
  if ctx.chunk.cacheCount ≤ idx then
    .error <| s!"pc {pc}: {what} cache index {idx} out of range (cache_count " ++
      s!"{ctx.chunk.cacheCount})"
  else .ok ()

def checkSlotIndex (ctx : VCtx) (idx pc : Nat) (what : String) : Check Unit :=
  if ctx.chunk.globalSlotCount ≤ idx then
    .error <| s!"pc {pc}: {what} slot index {idx} out of range (global_slot_count " ++
      s!"{ctx.chunk.globalSlotCount})"
  else .ok ()

/-- `NO_ELEMENT_TYPE_NAME`, also the runtime-bound sentinel of an array dimension -/
def noElementTypeName : Nat := 0xFFFF

def checkCodeTarget (ctx : VCtx) (target pc : Nat) (what : String) : Check Unit :=
  if ctx.chunk.count ≤ target ∨ ctx.boundary target = false then
    .error s!"pc {pc}: {what} target {target} is not a valid instruction boundary"
  else .ok ()

/-! ## pass 1: the instruction stream -/

/-- the format `%02X` -/
def hexByte (b : UInt8) : String :=
  String.ofList [(Nat.digitChar (b.toNat / 16)).toUpper, (Nat.digitChar (b.toNat % 16)).toUpper]

/-- The offsets of the instructions from `pc` on.  A step advances, so `count` steps of fuel
reach the end. -/
def instructionStreamFrom (chunk : BytecodeChunk) : Nat → Nat → Check (List Nat)
  | 0, _ => .ok []
  | fuel + 1, pc =>
    if pc < chunk.count then
      match pscalOpcodeInfo (chunk.byte pc) with
      | none =>
        let opcode := hexByte (chunk.byte pc)
        .error s!"pc {pc}: undefined opcode 0x{opcode}"
      | some info =>
        let decoded := pscalDecodeInstructionLength chunk pc
        if decoded.ok = false then .error s!"pc {pc}: truncated {info.name} instruction"
        else if chunk.count < pc + decoded.length then
          .error s!"pc {pc}: {info.name} instruction runs past end of code section"
        else do
          let rest ← instructionStreamFrom chunk fuel (pc + decoded.length)
          return pc :: rest
    else .ok []

def verifyInstructionStream (chunk : BytecodeChunk) : Check (List Nat) :=
  instructionStreamFrom chunk chunk.count 0

/-! ## pass 2: operands and payloads -/

/-- The `dims` bound pairs of an array payload from `cursor` on; gives the number of dimensions
with the runtime-bound sentinel. -/
def walkArrayBounds (ctx : VCtx) (pc : Nat) (what : String) : Nat → Nat → Check Nat
  | 0, _ => .ok 0
  | dims + 1, cursor => do
    let lo := ctx.chunk.u16 cursor
    let hi := ctx.chunk.u16 (cursor + 2)
    if lo = 0xFFFF ∧ hi = 0xFFFF then
      let rest ← walkArrayBounds ctx pc what dims (cursor + 4)
      return rest + 1
    else
      checkConstIndex ctx lo pc what
      checkConstIndex ctx hi pc what
      walkArrayBounds ctx pc what dims (cursor + 4)

/-- the `DEFINE_GLOBAL` branch of `walkVariablePayload`, past its leading field -/
def walkDefineGlobalPayload (ctx : VCtx) (pc typePos : Nat) : Check Unit := do
  let chunk := ctx.chunk
  let cursor := typePos + 1
  match VarType.ofByte (chunk.byte typePos) with
  | some .array =>
    let dims := chunk.u8 cursor
    let _ ← walkArrayBounds ctx pc "DEFINE_GLOBAL array bound" dims (cursor + 1)
    -- the element VarType byte lies between the bounds and the element name
    checkConstIndex ctx (chunk.u16 (cursor + 1 + dims * 4 + 1)) pc "DEFINE_GLOBAL element-name"
  | some .string =>
    checkConstIndex ctx (chunk.u16 cursor) pc "DEFINE_GLOBAL type-name"
    checkConstIndex ctx (chunk.u16 (cursor + 2)) pc "DEFINE_GLOBAL length"
  | some .file =>
    checkConstIndex ctx (chunk.u16 cursor) pc "DEFINE_GLOBAL type-name"
    let elemName := chunk.u16 (cursor + 3)
    if elemName = noElementTypeName then .ok ()
    else checkConstIndex ctx elemName pc "DEFINE_GLOBAL element-name"
  | _ => checkConstIndex ctx (chunk.u16 cursor) pc "DEFINE_GLOBAL type-name"

/-- `walkVariablePayload`: checks the payload, and gives the runtime-computed dimensions of an
array initialiser (`0` for the `DEFINE_GLOBAL` family) -/
def walkVariablePayload (ctx : VCtx) (pc : Nat) : Check Nat := do
  let chunk := ctx.chunk
  match chunk.opcode? pc with
  | some .defineGlobal =>
    checkConstIndex ctx (chunk.u8 (pc + 1)) pc "DEFINE_GLOBAL name"
    walkDefineGlobalPayload ctx pc (pc + 2)
    return 0
  | some .defineGlobal16 =>
    checkConstIndex ctx (chunk.u16 (pc + 1)) pc "DEFINE_GLOBAL name"
    walkDefineGlobalPayload ctx pc (pc + 3)
    return 0
  | some .defineGlobalSlot =>
    checkSlotIndex ctx (chunk.u16 (pc + 1)) pc "DEFINE_GLOBAL_SLOT"
    walkDefineGlobalPayload ctx pc (pc + 3)
    return 0
  | _ =>
    let dims := chunk.u8 (pc + 2)
    let dynamic ← walkArrayBounds ctx pc "array bound" dims (pc + 3)
    checkConstIndex ctx (chunk.u16 (pc + 3 + dims * 4 + 1)) pc "element-name"
    return dynamic

def hostFnCount : Nat := 17

/-- one letter of the encoding column, its operand at `cursor` -/
def checkOperand (ctx : VCtx) (pc len : Nat) (name : String) (op : Operand) (cursor : Nat) :
    Check Unit :=
  match op with
  | .k => checkConstIndex ctx (ctx.chunk.u8 cursor) pc name
  | .K => checkConstIndex ctx (ctx.chunk.u16 cursor) pc name
  | .W => checkCodeTarget ctx (ctx.chunk.u32 cursor) pc name
  | .j =>
    let target : Int := (pc + len : Nat) + ctx.chunk.i32 cursor
    if target < 0 ∨ (ctx.chunk.count : Int) ≤ target ∨ ctx.boundary target.toNat = false then
      .error s!"pc {pc}: {name} jump target {target} is not a valid instruction boundary"
    else .ok ()
  | .c => checkCacheIndex ctx (ctx.chunk.u16 cursor) pc name
  | .s => checkSlotIndex ctx (ctx.chunk.u16 cursor) pc name
  | .b | .i | .w | .f | .C => .ok ()

/-- the letters of the encoding column of one instruction, from `cursor` on -/
def checkOperands (ctx : VCtx) (pc len : Nat) (name : String) : List Operand → Nat → Check Unit
  | [], _ => .ok ()
  | op :: ops, cursor => do
    checkOperand ctx pc len name op cursor
    checkOperands ctx pc len name ops (cursor + op.width)

/-- the field-address opcodes use their constant as the name of a field -/
def checkFieldName (ctx : VCtx) (pc nameIdx : Nat) (name : String) : Check Unit := do
  checkConstIndex ctx nameIdx pc name
  if (ctx.chunk.constants[nameIdx]?.map Value.type) ≠ some .string then
    .error s!"pc {pc}: {name} field name constant {nameIdx} is not a string"

/-- one round of the loop of `verifyOperands` -/
def verifyInstruction (ctx : VCtx) (pc : Nat) : Check Unit := do
  let chunk := ctx.chunk
  match chunk.opcode? pc with
  | none => .ok ()
  | some op =>
    let info := op.info
    let len := getInstructionLength chunk pc
    match info.operands with
    | .variable => discard (walkVariablePayload ctx pc)
    | .fixed ops =>
      match op with
      | .callHost =>
        if hostFnCount ≤ chunk.u8 (pc + 1) then
          .error <| s!"pc {pc}: CALL_HOST host id {chunk.u8 (pc + 1)} out of range (max " ++
            s!"{hostFnCount})"
      | .initLocalFile =>
        let elemName := chunk.u16 (pc + 3)
        if elemName = noElementTypeName then .ok ()
        else checkConstIndex ctx elemName pc info.name
      | .getFieldAddress | .getFieldAddressKeep =>
        checkFieldName ctx pc (chunk.u8 (pc + 1)) info.name
      | .getFieldAddress16 | .getFieldAddressKeep16 =>
        checkFieldName ctx pc (chunk.u16 (pc + 1)) info.name
      | .loadElementValue =>
        if chunk.u8 (pc + 1) = 0 then
          .error s!"pc {pc}: LOAD_ELEMENT_VALUE has no indices"
        else checkOperands ctx pc len info.name ops (pc + 1)
      | .pushTypeDefault =>
        match VarType.ofByte (chunk.byte (pc + 1)) with
        | some .record | some .interface | some .pointer =>
          checkOperands ctx pc len info.name ops (pc + 1)
        | t =>
          let typeName := (t.getD .unknown).toString
          .error s!"pc {pc}: PUSH_TYPE_DEFAULT of type {typeName}"
      | _ => checkOperands ctx pc len info.name ops (pc + 1)

def verifyOperands (ctx : VCtx) : Check Unit := ctx.starts.forM (verifyInstruction ctx)

/-! ## upvalue descriptors -/

/-- the descriptors `i`, `i + 1`, .. of `s` against the frame of `enclosing` -/
def verifyUpvaluesOf (s enclosing : Symbol) : Nat → List UpvalueDescriptor → Check Unit
  | _, [] => .ok ()
  | i, up :: ups => do
    let limit :=
      if up.isLocal then enclosing.arity.toNat + enclosing.localsCount.toNat
      else enclosing.upvalueCount
    let kind := if up.isLocal then "slot" else "upvalue"
    if limit ≤ up.index.toNat then
      .error <| s!"routine {s.name}: upvalue {i} refers to {kind} {up.index.toNat} of " ++
        s!"{enclosing.name}, which has {limit}"
    verifyUpvaluesOf s enclosing (i + 1) ups

def verifyUpvaluesInTable (heap : SymbolRef → Symbol) : HashTable → Check Unit
  | .nil => .ok ()
  | .node r nested next => do
    let s := heap r
    if s.isAlias = false then
      match s.enclosing with
      | none => pure ()
      | some e => verifyUpvaluesOf s (heap (resolveSymbolAlias heap e)) 0 s.upvalues
    verifyUpvaluesInTable heap nested
    verifyUpvaluesInTable heap next

/-! ## pass 3: the entries -/

/-- `AddrSym`; `sym` is null for the top-level program and for an unnamed thread entry -/
structure AddrSym where
  addr : Nat
  sym : Option SymbolRef
deriving DecidableEq, Repr

def collectProcedures (heap : SymbolRef → Symbol) : HashTable → List AddrSym
  | .nil => []
  | .node r nested next =>
    let s := heap r
    (if s.isAlias = false ∧ s.isDefined = true ∧ 0 ≤ s.bytecodeAddress then
      [⟨s.bytecodeAddress.toNat, some r⟩] else []) ++
      (collectProcedures heap nested ++ collectProcedures heap next)

/-- `cmpAddrSym(a, b) <= 0`: by address, a named entry ahead of an unnamed one -/
def addrSymLE (a b : AddrSym) : Bool :=
  a.addr < b.addr || (a.addr == b.addr && (a.sym.isSome || b.sym.isNone))

/-- the first symbol defined at the address, followed through an alias -/
def findProcByAddress (heap : SymbolRef → Symbol) : HashTable → Nat → Option SymbolRef
  | .nil, _ => none
  | .node r nested next, address =>
    let s := heap r
    if s.isDefined = true ∧ s.bytecodeAddress % 2 ^ 32 = (address : Int) then
      some (resolveSymbolAlias heap r)
    else (findProcByAddress heap nested address).or (findProcByAddress heap next address)

def findProcByName (heap : SymbolRef → Symbol) (table : HashTable) (name : String) :
    Option SymbolRef :=
  (hashTableLookup heap table name).map (resolveSymbolAlias heap)

/-- the entries of `THREAD_CREATE` instructions, in code order -/
def threadEntries (ctx : VCtx) : List AddrSym :=
  (ctx.starts.filter fun pc => ctx.chunk.opcode? pc = some .threadCreate).map fun pc =>
    let target := ctx.chunk.u32 (pc + 1)
    ⟨target, findProcByAddress ctx.procedures.heap ctx.procedures.table target⟩

/-- the collected entries after `qsort`.  The order `qsort` leaves among entries that compare
equal is not specified; the model keeps the collecting order. -/
def collectedEntries (ctx : VCtx) : List AddrSym :=
  (⟨0, none⟩ :: (collectProcedures ctx.procedures.heap ctx.procedures.table ++
    threadEntries ctx)).insertionSort (fun a b => addrSymLE a b = true)

def entryName (heap : SymbolRef → Symbol) (entry : AddrSym) : String :=
  match entry.sym with
  | some r => (heap r).name
  | none => if entry.addr = 0 then "the top-level program" else "an unnamed thread entry"

/-- drops what lies past the end of the code, and all but the first entry of an address; `kept`
are the entries before, the last one first -/
def dedupeEntries (ctx : VCtx) : List AddrSym → List AddrSym → Check (List AddrSym)
  | kept, [] => .ok kept.reverse
  | kept, e :: es =>
    if ctx.chunk.count ≤ e.addr then dedupeEntries ctx kept es
    else if ctx.boundary e.addr = false then
      let name := entryName ctx.procedures.heap e
      .error s!"{name} starts at pc {e.addr}, which is not an instruction boundary"
    else if kept.head?.map AddrSym.addr = some e.addr then dedupeEntries ctx kept es
    else dedupeEntries ctx (e :: kept) es

/-! ## pass 3: the walk -/

/-- `Depth`: the operand depth, as long as every stack effect on the path is known -/
inductive Depth where
  | known (value : Int)
  | unknown
deriving DecidableEq, Repr

structure WorkItem where
  pc : Nat
  depth : Depth
deriving DecidableEq, Repr

/-- what an instruction needs (`req`) and does (`delta`) to the depth -/
structure Effect where
  req : Int
  delta : Int
  unknownAfter : Bool := false
deriving DecidableEq, Repr

/-- `sym && sym->type != TYPE_VOID` -/
def isFunction (heap : SymbolRef → Symbol) (sym : Option SymbolRef) : Bool :=
  match sym with
  | some r => (heap r).type != .void
  | none => false

/-- the constant at `idx`, when it is a string that is not null -/
def constString (chunk : BytecodeChunk) (idx : Nat) : Option String :=
  match chunk.constants[idx]? with
  | some (.str .string s) => s
  | _ => none

/-- the callee of `CALL` or `CALL_USER_PROC`, when the tables resolve it -/
def calleeOf (chunk : BytecodeChunk) (procs : Procedures) (pc : Nat) (op : OpCode) :
    Option SymbolRef :=
  if op = .call then findProcByAddress procs.heap procs.table (chunk.u32 (pc + 3))
  else
    (constString chunk (chunk.u16 (pc + 1))).bind fun name =>
      findProcByName procs.heap procs.table (toLowerString (truncateTo maxSymbolLength name))

def classifyInstruction (ctx : VCtx) (pc len : Nat) (op : OpCode) (entrySymbol : Option SymbolRef) :
    Check Effect :=
  let chunk := ctx.chunk
  match op with
  | .returnOp | .exit =>
    .ok { req := if isFunction ctx.procedures.heap entrySymbol then 1 else 0, delta := 0 }
  | .getElementAddress | .loadElementValue =>
    let req : Int := 1 + chunk.u8 (pc + 1)
    .ok { req := req, delta := 1 - req }
  | .initLocalArray => do
    let dynamic ← walkVariablePayload ctx pc
    return { req := dynamic, delta := -dynamic }
  | .initFieldArray => do
    let dynamic ← walkVariablePayload ctx pc
    return { req := 1 + dynamic, delta := -dynamic }
  | .callBuiltinProc =>
    let arity : Int := chunk.u8 (pc + len - 1)
    .ok { req := arity, delta := -arity }
  | .callBuiltin =>
    let arity : Int := chunk.u8 (pc + len - 1)
    let pushed : Int := match constString chunk (chunk.u16 (pc + 1)) with
      | some name => if ctx.limits.getBuiltinType name = .procedure then 0 else 1
      | none => 1
    .ok { req := arity, delta := pushed - arity }
  | .callUserProc | .call =>
    let arity : Int := chunk.u8 (pc + len - 1)
    match calleeOf chunk ctx.procedures pc op with
    | some r =>
      let result : Int := if (ctx.procedures.heap r).type = .void then 0 else 1
      .ok { req := arity, delta := -arity + result }
    | none => .ok { req := arity, delta := 0, unknownAfter := true }
  | .callIndirect =>
    .ok { req := chunk.u8 (pc + 1) + 1, delta := 0, unknownAfter := true }
  | .callMethod =>
    .ok { req := chunk.u8 (pc + 2) + 1, delta := 0, unknownAfter := true }
  | .procCallIndirect =>
    let arity : Int := chunk.u8 (pc + 1)
    .ok { req := arity + 1, delta := -(arity + 1) }
  | .callHost => .ok { req := 0, delta := 0, unknownAfter := true }
  | op =>
    let info := op.info
    if info.stackIn < 0 ∨ info.stackOut < 0 then
      .error s!"pc {pc}: opcode {info.name} has no verifier rule for its variable stack effect"
    else .ok { req := info.stackIn, delta := info.stackOut - info.stackIn }

/-- `WalkState`; `owner pc` is 1 + the index of the walk that reached `pc`, or 0 -/
structure WalkState where
  owner : Nat → Nat
  visitedKnown : Nat → Bool
  visitedUnknown : Nat → Bool
  depths : Nat → Int

/-- `addSuccessor`: admits `target` as a successor of `pc` in walk `walkId` -/
def addSuccessor (ctx : VCtx) (entries : List AddrSym) (owner : Nat → Nat) (walkId pc : Nat)
    (name : String) (target : Int) : Check Nat :=
  if target < 0 ∨ (ctx.chunk.count : Int) ≤ target ∨ ctx.boundary target.toNat = false then
    .error s!"pc {pc}: {name} continues to pc {target}, past the end of the code section"
  else
    let other := owner target.toNat
    if other ≠ 0 ∧ other ≠ walkId then
      let here := (entries[walkId - 1]?).getD ⟨0, none⟩
      let there := (entries[other - 1]?).getD ⟨0, none⟩
      let hereName := entryName ctx.procedures.heap here
      let thereName := entryName ctx.procedures.heap there
      if (there.addr : Int) = target then
        .error s!"pc {pc}: {name} in {hereName} enters {thereName} at pc {target} without a call"
      else
        .error <| s!"pc {pc}: {name} in {hereName} reaches pc {target}, which belongs to " ++
          s!"{thereName} (entry pc {there.addr})"
    else .ok target.toNat

/-- the depth after the instruction at `pc`, or the bound that fails -/
def nextDepth (limits : VmLimits) (pc : Nat) (name : String) (eff : Effect) : Depth → Check Depth
  | .unknown => .ok .unknown
  | .known d =>
    if d < eff.req then
      .error s!"pc {pc}: {name} requires stack depth >= {eff.req} but have {d}"
    else if eff.unknownAfter then .ok .unknown
    else
      let nv := d + eff.delta
      if nv < 0 then
        .error s!"pc {pc}: {name} would underflow the stack (depth {d}, delta {eff.delta})"
      else if (limits.stackCeiling : Int) < nv then
        .error <| s!"pc {pc}: {name} exceeds the maximum stack depth ({nv} > " ++
          s!"{limits.stackCeiling})"
      else .ok (.known nv)

/-- Where control goes from the instruction at `pc`, jump target first.  `RETURN`, `EXIT` and
`HALT` end the walk; a call comes back to the byte after it. -/
def flowTargets (chunk : BytecodeChunk) (pc len : Nat) (op : OpCode) : List Int :=
  match op with
  | .returnOp | .exit | .halt => []
  | .jump => [(pc + len : Nat) + chunk.i32 (pc + 1)]
  | .jumpIfFalse => [(pc + len : Nat) + chunk.i32 (pc + 1), (pc + len : Nat)]
  | _ => [(pc + len : Nat)]

/-- marks the visit of an item; `none`: it has been checked before -/
def markVisited (st : WalkState) (walkId : Nat) (item : WorkItem) : Check (Option WalkState) :=
  let owner := Function.update st.owner item.pc walkId
  match item.depth with
  | .known d =>
    if st.visitedKnown item.pc then
      if st.depths item.pc ≠ d then
        .error <| s!"pc {item.pc}: stack depth mismatch at control-flow join " ++
          s!"({st.depths item.pc} vs {d})"
      else .ok none
    else .ok (some { st with
      owner := owner
      visitedKnown := Function.update st.visitedKnown item.pc true
      depths := Function.update st.depths item.pc d })
  | .unknown =>
    if st.visitedUnknown item.pc then .ok none
    else .ok (some { st with
      owner := owner
      visitedUnknown := Function.update st.visitedUnknown item.pc true })

/-- one round of the loop of `verifyWalk`: the item's new state and the items it pushes -/
def walkItem (ctx : VCtx) (entries : List AddrSym) (walkId : Nat) (sym : Option SymbolRef)
    (st : WalkState) (item : WorkItem) : Check (WalkState × List WorkItem) := do
  let pc := item.pc
  match ← markVisited st walkId item with
  | none => return ({ st with owner := Function.update st.owner pc walkId }, [])
  | some st' =>
    match ctx.chunk.opcode? pc with
    | none => return (st', [])
    | some op =>
      let len := getInstructionLength ctx.chunk pc
      let eff ← classifyInstruction ctx pc len op sym
      let depth ← nextDepth ctx.limits pc op.info.name eff item.depth
      let succ ← (flowTargets ctx.chunk pc len op).mapM
        (addSuccessor ctx entries st'.owner walkId pc op.info.name)
      return (st', succ.map fun target => ⟨target, depth⟩)

/-- `4 * count + 8` -/
def worklistCap (chunk : BytecodeChunk) : Nat := 4 * chunk.count + 8

/-- `verifyWalk` of the entry with 1-based index `walkId` -/
def verifyWalk (ctx : VCtx) (entries : List AddrSym) (walkId : Nat) (entry : AddrSym)
    (st : WalkState) : Check WalkState :=
  let cap := worklistCap ctx.chunk
  match Worklist.run cap (walkItem ctx entries walkId entry.sym) cap st
      [⟨entry.addr, .known 0⟩] with
  | some r => r
  | none => .error "worklist not exhausted"

/-- the walks of the entries from the one with index `i` on -/
def verifyWalks (ctx : VCtx) (entries : List AddrSym) :
    Nat → List AddrSym → WalkState → Check WalkState
  | _, [], st => .ok st
  | i, e :: es, st => do
    let st' ← verifyWalk ctx entries (i + 1) e st
    verifyWalks ctx entries (i + 1) es st'

/-- every entry is claimed by its own walk before any walk runs -/
def claimEntries : Nat → List AddrSym → (Nat → Nat) → Nat → Nat
  | _, [], owner => owner
  | i, e :: es, owner => claimEntries (i + 1) es (Function.update owner e.addr (i + 1))

def initialWalkState (entries : List AddrSym) : WalkState where
  owner := claimEntries 0 entries fun _ => 0
  visitedKnown := fun _ => false
  visitedUnknown := fun _ => false
  depths := fun _ => 0

def intMax : Nat := 2 ^ 31 - 1

def verifyStackDepths (ctx : VCtx) : Check WalkState := do
  let entries ← dedupeEntries ctx [] (collectedEntries ctx)
  if intMax < worklistCap ctx.chunk then
    .error s!"code section of {ctx.chunk.count} bytes is too large to verify"
  verifyWalks ctx entries 0 entries (initialWalkState entries)

/-! ## the entry point -/

/-- `pscalVerifyBytecodeChunk` of a chunk that is not null -/
def pscalVerifyBytecodeChunk (chunk : BytecodeChunk) (procedures : Procedures)
    (limits : VmLimits) : Check Unit :=
  if chunk.count = 0 then .ok ()
  else do
    let starts ← verifyInstructionStream chunk
    let ctx : VCtx := ⟨chunk, procedures, limits, starts⟩
    verifyOperands ctx
    verifyUpvaluesInTable procedures.heap procedures.table
    discard (verifyStackDepths ctx)

end Pscal
