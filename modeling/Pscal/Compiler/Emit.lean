import Pscal.Compiler.Peephole
import Pscal.Lib.Hoare

/-!
# Emitting code addresses

The compiler writes instructions, puts constants into the pool, and notes which constants are
code addresses.  `Emitter` is that state, with three records no code reads: where code addresses
stand, which constants the program itself uses, and which routines are compiled.

* `addConstantToChunk`  the pool, which gives equal constants one index;
* `recordAddressConstantEntry`  the notes, which `resetAddressConstantTracking` drops;
* `emitClosureLiteral`, …  the literals that hold code addresses;
* `compileProgram`  the run of a compile, unit by unit, and the final `HALT`.
-/

namespace Pscal

/-! ## the constant pool -/

/-- the width of a real below its sign bit, and infinity in it -/
def RealType.magnitude : RealType → Nat × Nat
  | .float => (31, 0x7F800000)
  | .double => (63, 0x7FF0000000000000)
  | .longDouble => (79, 0x7FFF8000000000000000)

/-- `==` of two reals: a NaN equals nothing, the zeros equal each other -/
def realEq (t : RealType) (a b : Nat) : Bool :=
  let (width, infinity) := t.magnitude
  a % 2 ^ width ≤ infinity ∧ b % 2 ^ width ≤ infinity ∧
    (a = b ∨ a % 2 ^ width = 0 ∧ b % 2 ^ width = 0)

/-- `strcmp(a, b) == 0` -/
def strcmpEq (a b : String) : Bool :=
  a.toList.takeWhile (· ≠ '\x00') = b.toList.takeWhile (· ≠ '\x00')

/-- the test of `addConstantToChunk`: only these types are ever equal -/
def sameConstant (existing value : Value) : Bool :=
  match existing, value with
  | .scalar .int32 a, .scalar .int32 b => a = b
  | .real t a, .real t' b => t = t' ∧ realEq t a b
  | .str .string (some a), .str .string (some b) => strcmpEq a b
  | .scalar .char a, .scalar .char b => a = b
  | _, _ => false

def addConstantToChunk (chunk : BytecodeChunk) (value : Value) : BytecodeChunk × Nat :=
  match chunk.constants.findIdx? (sameConstant · value) with
  | some i => (chunk, i)
  | none => ({ chunk with constants := chunk.constants ++ [value] }, chunk.constants.length)

def intConstant (v : Int) : Value :=
  if -2 ^ 31 ≤ v ∧ v < 2 ^ 31 then .scalar .int32 v else .scalar .int64 v

/-! ## the state -/

/-- a place of the chunk that can hold a code address -/
inductive AddressPlace where
  | operand (offset : Nat)
  | immediate (offset : Nat)
  | constant (index : Nat)
  | element (index element : Nat)
deriving DecidableEq, Repr

structure Emitter where
  chunk : BytecodeChunk
  procedures : Procedures
  /-- `address_constant_entries` -/
  entries : List AddressConstantEntry := []
  addresses : List (AddressPlace × Nat) := []
  literals : List Nat := []
  compiled : List SymbolRef := []

/-- a part of the compiler; it gives up where it reports an error -/
abbrev Emit := StateT Emitter Option

/-- `writeBytecodeChunk`, byte by byte -/
def BytecodeChunk.appendBytes (chunk : BytecodeChunk) (bytes : List UInt8) : BytecodeChunk :=
  { chunk with
    code := chunk.code ++ bytes
    lines := chunk.lines ++ List.replicate bytes.length 0 }

/-- `count` is an `int` -/
def writeBytes (bytes : List UInt8) : Emit Unit := fun st =>
  if st.chunk.count + bytes.length < 2 ^ 31 then
    some ((), { st with chunk := st.chunk.appendBytes bytes })
  else none

def addConstant (value : Value) : Emit Nat := fun st =>
  let (chunk, index) := addConstantToChunk st.chunk value
  some (index, { st with chunk := chunk })

def addIntConstant (v : Int) : Emit Nat := addConstant (intConstant v)

def noteLiteral (index : Nat) : Emit Unit := fun st =>
  some ((), { st with literals := index :: st.literals })

/-- the address of a compiled routine now stands at `place` -/
def noteAddress (place : AddressPlace) (r : SymbolRef) : Emit Unit := fun st =>
  if r ∈ st.compiled then
    some ((), { st with addresses :=
      (place, (st.procedures.heap r).bytecodeAddress.toNat) :: st.addresses })
  else some ((), st)

def recordAddressConstantEntry (entry : AddressConstantEntry) : Emit Unit := fun st =>
  some ((), { st with entries := st.entries ++ [entry] })

def recordAddressConstant (index : Nat) (address : Int) : Emit Unit :=
  recordAddressConstantEntry { constantIndex := index, originalAddress := address }

def recordArrayAddressConstant (index element : Nat) (address : Int) : Emit Unit :=
  recordAddressConstantEntry
    { constantIndex := index, originalAddress := address, elementIndex := some element }

def recordNamedAddressConstant (index : Nat) (address : Int) (name : String) (r : SymbolRef) :
    Emit Unit :=
  recordAddressConstantEntry
    { constantIndex := index, originalAddress := address, symbolName := some name,
      symbolRef := some r }

def resetAddressConstantTracking : Emit Unit := fun st => some ((), { st with entries := [] })

def symbolAt (r : SymbolRef) : Emit Symbol := fun st => some (st.procedures.heap r, st)

/-! ## constants in the code -/

/-- `emitImmediateConstant`: the instruction that holds the value itself -/
def immediateBytes (value : Value) : Option (List UInt8) :=
  match value with
  | .scalar .int32 v =>
    if v = 0 then some [OpCode.const0.byte]
    else if v = 1 then some [OpCode.const1.byte]
    else if -128 ≤ v ∧ v ≤ 127 then
      some [OpCode.pushImmediateInt8.byte, UInt8.ofNat (v % 256).toNat]
    else none
  | .scalar .boolean v => some [if v ≠ 0 then OpCode.constTrue.byte else OpCode.constFalse.byte]
  | _ => none

def indexBytes (index : Nat) : Option (List UInt8) :=
  if index ≤ 0xFF then some [OpCode.constant.byte, UInt8.ofNat index]
  else if index ≤ 0xFFFF then
    some [OpCode.constant16.byte, UInt8.ofNat (index / 256), UInt8.ofNat (index % 256)]
  else none

def emitConstantNoImmediate (index : Nat) : Emit Unit := fun st =>
  match indexBytes index with
  | some bytes => writeBytes bytes st
  | none => none

def emitConstant (index : Nat) : Emit Unit := fun st =>
  match st.chunk.constants[index]?.bind immediateBytes with
  | some bytes => writeBytes bytes st
  | none => emitConstantNoImmediate index st

/-- `emitConstant` of the address of `r` -/
def emitAddress (index : Nat) (r : SymbolRef) : Emit Unit := fun st =>
  match st.chunk.constants[index]?.bind immediateBytes with
  | some bytes => (do writeBytes bytes; noteAddress (.immediate st.chunk.count) r : Emit Unit) st
  | none => emitConstantNoImmediate index st

/-! ## code addresses -/

def hostFnCreateClosure : UInt8 := 11

/-- the address of a routine as a constant: what `emitClosureLiteral` pushes, and the spawn of a
routine that takes arguments -/
def emitAddressConstant (r : SymbolRef) : Emit Unit := do
  let psym ← symbolAt r
  let addrConst ← addIntConstant psym.bytecodeAddress
  recordAddressConstant addrConst psym.bytecodeAddress
  noteAddress (.constant addrConst) r
  emitAddress addrConst r

def emitLiteral (value : Value) : Emit Nat := do
  let index ← addConstant value
  noteLiteral index
  pure index

/-- the end of `emitClosureLiteral`, behind the captured slots -/
def emitClosureLiteral (r : SymbolRef) : Emit Unit := do
  let psym ← symbolAt r
  let countConst ← emitLiteral (intConstant psym.upvalueCount)
  emitConstant countConst
  emitAddressConstant r
  writeBytes [OpCode.callHost.byte, hostFnCreateClosure]

/-- `emitProcedureReferenceLiteral` of a routine that needs no closure -/
def emitProcedureReferenceLiteral (r : SymbolRef) : Emit Unit := do
  let psym ← symbolAt r
  let addrConst ← addIntConstant psym.bytecodeAddress
  recordNamedAddressConstant addrConst psym.bytecodeAddress psym.name r
  noteAddress (.constant addrConst) r
  emitConstantNoImmediate addrConst

/-- a spawned routine without arguments -/
def emitThreadCreate (r : SymbolRef) : Emit Unit := fun st =>
  let psym := st.procedures.heap r
  if psym.isDefined ∧ psym.isBodyCompiled then
    (do
      writeBytes (OpCode.threadCreate.byte :: int32Bytes psym.bytecodeAddress)
      noteAddress (.operand st.chunk.count) r : Emit Unit) st
  else none

/-- the constant of a v-table; `none` is `NO_VTABLE_ENTRY` -/
def vtableConstant (heap : SymbolRef → Symbol) (methods : List (Option SymbolRef)) : Value :=
  .array .int32 (methods.map fun method =>
    .scalar .int32 (setIntBits .int32 (match method with
      | some r => (heap r).bytecodeAddress
      | none => 0)))

def recordVTable (index : Nat) (heap : SymbolRef → Symbol) :
    Nat → List (Option SymbolRef) → Emit Unit
  | _, [] => pure ()
  | j, none :: methods => recordVTable index heap (j + 1) methods
  | j, some r :: methods => do
    recordArrayAddressConstant index j (heap r).bytecodeAddress
    noteAddress (.element index j) r
    recordVTable index heap (j + 1) methods

/-- `emitVTables` for one class, to where the table is pushed; a method without an address leaves
the class for later -/
def emitVTable (methods : List (Option SymbolRef)) : Emit Unit := fun st =>
  let heap := st.procedures.heap
  if methods ≠ [] ∧ ∀ r ∈ methods.filterMap id, 0 < (heap r).bytecodeAddress then
    (do
      let cidx ← addConstant (vtableConstant heap methods)
      recordVTable cidx heap 0 methods
      emitConstant cidx : Emit Unit) st
  else some ((), st)

/-! ## routines -/

/-- `compileNode` of a routine: the jump over its body (written here with its final operand), and
the address in its symbol -/
def beginRoutine (r : SymbolRef) (skip : Int) (hasBody : Bool) : Emit Unit := do
  writeBytes (OpCode.jump.byte :: int32Bytes skip)
  fun st =>
    let s := st.procedures.heap r
    let s := { s with
      isDefined := true
      isBodyCompiled := s.isBodyCompiled || hasBody
      bytecodeAddress := st.chunk.count }
    some ((), { st with
      procedures := { st.procedures with heap := Function.update st.procedures.heap r s }
      compiled := r :: st.compiled })

/-- `syncVirtualMethodSymbolToGlobalTable`: another symbol takes over the address of a routine -/
def mirrorRoutine (source target : SymbolRef) : Emit Unit := fun st =>
  if source ∈ st.compiled then
    let s := st.procedures.heap source
    let t := { st.procedures.heap target with
      isDefined := s.isDefined
      isBodyCompiled := s.isBodyCompiled
      bytecodeAddress := s.bytecodeAddress
      isAlias := false
      realSymbol := none }
    some ((), { st with
      procedures := { st.procedures with heap := Function.update st.procedures.heap target t }
      compiled := target :: st.compiled })
  else some ((), st)

/-! ## a compile -/

def WholeInstruction (bytes : List UInt8) : Prop :=
  pscalDecodeInstructionLength { code := bytes } 0 = ⟨true, bytes.length⟩

instance (bytes : List UInt8) : Decidable (WholeInstruction bytes) :=
  inferInstanceAs (Decidable (_ = _))

/-- what the compiler emits, one part after the other -/
inductive Emission where
  /-- any other instruction, with its final operands -/
  | instruction (bytes : List UInt8)
  /-- a constant of the program; its index goes into an instruction -/
  | literal (value : Value)
  | pushLiteral (value : Value)
  | routine (r : SymbolRef) (skip : Int) (hasBody : Bool)
  | mirror (source target : SymbolRef)
  | closureLiteral (r : SymbolRef)
  | referenceLiteral (r : SymbolRef)
  | spawnAddress (r : SymbolRef)
  | threadCreate (r : SymbolRef)
  | vtable (methods : List (Option SymbolRef))
  /-- the start of `compileModuleAST` or `compileASTToBytecode` -/
  | unitStart

def emitInstruction (bytes : List UInt8) : Emit Unit := fun st =>
  if WholeInstruction bytes ∧ bytes.head? ≠ some OpCode.threadCreate.byte then writeBytes bytes st
  else none

def emit : Emission → Emit Unit
  | .instruction bytes => emitInstruction bytes
  | .literal value => do let _ ← emitLiteral value
  | .pushLiteral value => do
    let index ← emitLiteral value
    emitConstant index
  | .routine r skip hasBody => beginRoutine r skip hasBody
  | .mirror source target => mirrorRoutine source target
  | .closureLiteral r => emitClosureLiteral r
  | .referenceLiteral r => emitProcedureReferenceLiteral r
  | .spawnAddress r => emitAddressConstant r
  | .threadCreate r => emitThreadCreate r
  | .vtable methods => emitVTable methods
  | .unitStart => resetAddressConstantTracking

/-- the parts in order, and the final `HALT` -/
def emitProgram (parts : List Emission) : Emit Unit := do
  parts.forM emit
  writeBytes [OpCode.halt.byte]

def compileProgram (procedures : Procedures) (parts : List Emission) : Option Emitter :=
  (emitProgram parts { chunk := { code := [] }, procedures := procedures }).map (·.2)

def Emitter.optimize (st : Emitter) : PeepholeResult :=
  applyPeepholeOptimizations st.chunk st.procedures st.entries

end Pscal
