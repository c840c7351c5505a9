import Pscal.Lib.Intern
import Pscal.Verify.Check

/-!
# Linking global slots

`bytecode_link.c`: `pscalLinkGlobalSlots` walks the code once, turns the name index of every
global-slot instruction into a slot number in place, and fills the slot tables of the chunk.

* `linkNameFieldToSlot`  one name field;
* `linkLoop`  the walk, with the code as far as it got;
* `pscalLinkGlobalSlots`  the tables from the names of the walk.
-/

namespace Pscal

open BytecodeChunk

structure GlobalSlot where
  symbol : Option SymbolRef := none
  definePc : Int := -1
deriving DecidableEq, Repr

/-- a chunk with its slot tables; `globalSlotCount` is a field of the chunk -/
structure LinkChunk extends BytecodeChunk where
  globalsLinked : Bool := false
  globalSlots : List GlobalSlot := []
  globalSlotIsConst : List Bool := []
  globalSlotNames : List String := []
  globalMyselfSlot : Int := -1
  globalPasExcPendingSlot : Int := -1
  globalPasExcMessageSlot : Int := -1

/-- the symbol tables of the process, with the `is_const` of their symbols -/
structure GlobalTables where
  heap : SymbolRef → Symbol
  isConst : SymbolRef → Bool
  constGlobalSymbols : Option HashTable
  globalSymbols : Option HashTable

/-- the C string in a buffer: up to the first null -/
def cString (s : String) : String := String.ofList (s.toList.takeWhile (· ≠ '\x00'))

/-- the name a slot is known by: at most `MAX_SYMBOL_LENGTH` characters, in lower case -/
def slotName (name : String) : String := toLowerString (truncateTo maxSymbolLength (cString name))

def linkResolveName (chunk : BytecodeChunk) (nameIdx : Nat) : Option String :=
  match chunk.constants[nameIdx]? with
  | some (.str .string (some s)) => some s
  | _ => none

/-- `none`: truncated -/
def defineGlobalSlotPayloadLength (chunk : BytecodeChunk) (pc : Nat) : Option Nat :=
  if chunk.count ≤ pc + 3 then none
  else
    let cursor := pc + 4
    match VarType.ofByte (chunk.byte (pc + 3)) with
    | some .array =>
      if chunk.count ≤ cursor then none
      else
        let cursor := cursor + 1 + chunk.u8 cursor * 4 + 3
        if chunk.count < cursor then none else some (cursor - pc)
    | declared =>
      let cursor := cursor + 2
      let cursor :=
        if declared = some .string then cursor + 2
        else if declared = some .file then cursor + 3
        else cursor
      if chunk.count < cursor then none else some (cursor - pc)

/-- the two bytes of a 16-bit operand -/
def uint16Bytes (v : Nat) : List UInt8 := [UInt8.ofNat (v / 256), UInt8.ofNat v]

def linkWriteU16BE (chunk : BytecodeChunk) (pos value : Nat) : BytecodeChunk :=
  { chunk with code := chunk.code.take pos ++ uint16Bytes value ++ chunk.code.drop (pos + 2) }

/-- the name field at `pc + 1`, as a slot -/
def linkNameFieldToSlot (chunk : BytecodeChunk) (list : List String) (pc : Nat)
    (opcodeName : String) : Except String (BytecodeChunk × List String) :=
  match linkResolveName chunk (chunk.u16 (pc + 1)) with
  | none => .error s!"pc {pc}: {opcodeName} name index out of range"
  | some name =>
    let (list, slot) := Intern.intern list (slotName name)
    .ok (linkWriteU16BE chunk (pc + 1) (slot % 65536), list)

/-- one instruction: the code and names after it, and its length -/
def linkInstruction (chunk : BytecodeChunk) (list : List String) (pc : Nat) :
    Except String (BytecodeChunk × List String × Nat) :=
  let slotInstruction (name : String) : Except String (BytecodeChunk × List String × Nat) :=
    if chunk.count < pc + 3 then .error s!"pc {pc}: truncated global-slot instruction"
    else (linkNameFieldToSlot chunk list pc name).map fun (chunk, list) => (chunk, list, 3)
  match chunk.opcode? pc with
  | some .defineGlobalSlot =>
    match defineGlobalSlotPayloadLength chunk pc with
    | none => .error s!"pc {pc}: truncated DEFINE_GLOBAL_SLOT instruction"
    | some len =>
      (linkNameFieldToSlot chunk list pc "DEFINE_GLOBAL_SLOT").map fun (chunk, list) =>
        (chunk, list, len)
  | some .getGslot => slotInstruction "GET_GSLOT"
  | some .setGslot => slotInstruction "SET_GSLOT"
  | some .getGslotAddress => slotInstruction "GET_GSLOT_ADDRESS"
  | none =>
    let opcode := hexByte (chunk.byte pc)
    .error s!"pc {pc}: undefined opcode 0x{opcode}"
  | some op =>
    let decoded := pscalDecodeInstructionLength chunk pc
    if decoded.ok = false ∨ chunk.count < pc + decoded.length then
      .error s!"pc {pc}: truncated {op.info.name} instruction"
    else .ok (chunk, list, decoded.length)

/-- The instructions from `pc` on: the code as far as it is rewritten, and the names or the error.
A step advances, so `count` steps of fuel reach the end. -/
def linkLoop : Nat → BytecodeChunk → List String → Nat → BytecodeChunk × Except String (List String)
  | 0, chunk, list, _ => (chunk, .ok list)
  | room + 1, chunk, list, pc =>
    if pc < chunk.count then
      match linkInstruction chunk list pc with
      | .error message => (chunk, .error message)
      | .ok (chunk, list, len) => linkLoop room chunk list (pc + len)
    else (chunk, .ok list)

def existingSymbol (tables : GlobalTables) (name : String) : Option SymbolRef :=
  (tables.constGlobalSymbols.bind fun table => hashTableLookup tables.heap table name).or
    (tables.globalSymbols.bind fun table => hashTableLookup tables.heap table name)

def slotNamed (names : List String) (name : String) : Int :=
  match (List.range names.length).reverse.find? fun i => names[i]? = some name with
  | some i => i
  | none => -1

/-- the chunk after the call, and its error -/
def pscalLinkGlobalSlots (tables : GlobalTables) (chunk : LinkChunk) : LinkChunk × Option String :=
  if chunk.globalsLinked then (chunk, none)
  else if chunk.count = 0 then
    ({ chunk with
       globalSlotCount := 0, globalSlots := [], globalSlotIsConst := [], globalSlotNames := []
       globalMyselfSlot := -1, globalPasExcPendingSlot := -1, globalPasExcMessageSlot := -1
       globalsLinked := true }, none)
  else match linkLoop chunk.count chunk.toBytecodeChunk [] 0 with
    | (code, .error message) => ({ chunk with toBytecodeChunk := code }, some message)
    | (code, .ok names) =>
      let symbols := names.map (existingSymbol tables)
      ({ chunk with
         toBytecodeChunk := { code with globalSlotCount := names.length }
         globalSlots := symbols.map fun symbol => { symbol := symbol }
         globalSlotIsConst := symbols.map fun symbol => (symbol.map tables.isConst).getD false
         globalSlotNames := names
         globalMyselfSlot := slotNamed names "myself"
         globalPasExcPendingSlot := slotNamed names "__pas_exc_pending"
         globalPasExcMessageSlot := slotNamed names "__pas_exc_message"
         globalsLinked := true }, none)

end Pscal
