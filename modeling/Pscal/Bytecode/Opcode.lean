import Mathlib

/-!
# The opcode page

`opcodes.def`: one constructor of `OpCode` per published ordinal, in the order of the ordinals
`0x00` .. `0x69`, and one row (`OpCode.info`) per opcode: mnemonic, operand encoding and stack
effect (`-1` = depends on the operands).
-/

namespace Pscal

/-- one operand of an instruction: the letters of the encoding column of `opcodes.def` -/
inductive Operand where
  | b | i | k | K | w | W | j | f | c | s | C
deriving DecidableEq, Repr

/-- the encoding column: a row of fixed-width operands, or `"?"` -/
inductive OperandSpec where
  | fixed (ops : List Operand)
  | variable
deriving DecidableEq, Repr

def globalInlineCacheSlotSize : Nat := 8

def Operand.width : Operand → Nat
  | .b | .i | .k => 1
  | .w | .K | .c | .s => 2
  | .j | .f | .W => 4
  | .C => globalInlineCacheSlotSize

/-- `pscalOpcodeOperandSpecLength` (`none` = the `-1` of a variable-length payload) -/
def OperandSpec.length? : OperandSpec → Option Nat
  | .fixed ops => some (ops.map Operand.width).sum
  | .variable => none

inductive OpCode where
  | returnOp | constant | constant16 | const0 | const1 | constTrue | constFalse
  | pushImmediateInt8 | add | subtract | multiply | divide | negate | not | toBool | equal
  | notEqual | greater | greaterEqual | less | lessEqual | intDiv | mod | and | or | xor | shl
  | shr | jumpIfFalse | jump | swap | dup | defineGlobal | defineGlobal16 | getGlobal | setGlobal
  | getGlobalAddress | getGlobal16 | setGlobal16 | getGlobalAddress16 | getGlobalCached
  | setGlobalCached | getGlobal16Cached | setGlobal16Cached | getLocal | setLocal | incLocal
  | decLocal | initLocalArray | initLocalFile | initLocalPointer | initLocalString
  | initFieldArray | getLocalAddress | getUpvalue | setUpvalue | getUpvalueAddress
  | getFieldAddress | getFieldAddress16 | getFieldAddressKeep | getFieldAddressKeep16
  | loadFieldValueByName | loadFieldValueByName16 | getElementAddress | getElementAddressConst
  | loadElementValue | loadElementValueConst | getCharAddress | setIndirect | getIndirect | inOp
  | makeSetSingleton | makeSetRange | getCharFromString | allocObject | allocObject16
  | getFieldOffset | getFieldOffset16 | loadFieldValue | loadFieldValue16 | callBuiltin
  | callBuiltinProc | callUserProc | callHost | pop | call | callIndirect | callMethod
  | procCallIndirect | halt | exit | formatValue | threadCreate | threadJoin | mutexCreate
  | rcmutexCreate | mutexLock | mutexUnlock | mutexDestroy | resetLocal | defineGlobalSlot
  | getGslot | setGslot | getGslotAddress | pushTypeDefault | formatValue16
deriving DecidableEq, Repr

namespace OpCode

/-- the page in the order of the ordinals -/
def page : List OpCode :=
  [.returnOp, .constant, .constant16, .const0, .const1, .constTrue, .constFalse,
   .pushImmediateInt8, .add, .subtract, .multiply, .divide, .negate, .not, .toBool, .equal,
   .notEqual, .greater, .greaterEqual, .less, .lessEqual, .intDiv, .mod, .and, .or, .xor, .shl,
   .shr, .jumpIfFalse, .jump, .swap, .dup, .defineGlobal, .defineGlobal16, .getGlobal,
   .setGlobal, .getGlobalAddress, .getGlobal16, .setGlobal16, .getGlobalAddress16,
   .getGlobalCached, .setGlobalCached, .getGlobal16Cached, .setGlobal16Cached, .getLocal,
   .setLocal, .incLocal, .decLocal, .initLocalArray, .initLocalFile, .initLocalPointer,
   .initLocalString, .initFieldArray, .getLocalAddress, .getUpvalue, .setUpvalue,
   .getUpvalueAddress, .getFieldAddress, .getFieldAddress16, .getFieldAddressKeep,
   .getFieldAddressKeep16, .loadFieldValueByName, .loadFieldValueByName16, .getElementAddress,
   .getElementAddressConst, .loadElementValue, .loadElementValueConst, .getCharAddress,
   .setIndirect, .getIndirect, .inOp, .makeSetSingleton, .makeSetRange, .getCharFromString,
   .allocObject, .allocObject16, .getFieldOffset, .getFieldOffset16, .loadFieldValue,
   .loadFieldValue16, .callBuiltin, .callBuiltinProc, .callUserProc, .callHost, .pop, .call,
   .callIndirect, .callMethod, .procCallIndirect, .halt, .exit, .formatValue, .threadCreate,
   .threadJoin, .mutexCreate, .rcmutexCreate, .mutexLock, .mutexUnlock, .mutexDestroy,
   .resetLocal, .defineGlobalSlot, .getGslot, .setGslot, .getGslotAddress, .pushTypeDefault,
   .formatValue16]

/-- the opcode of a code byte; `none` from `OPCODE_COUNT` on -/
def ofByte (byte : UInt8) : Option OpCode := page[byte.toNat]?

end OpCode

/-- one row of `opcodes.def` -/
structure OpcodeInfo where
  name : String
  operands : OperandSpec
  stackIn : Int
  stackOut : Int

def OpCode.info : OpCode → OpcodeInfo
  | .returnOp => ⟨"RETURN", .fixed [], -1, 0⟩
  | .constant => ⟨"CONSTANT", .fixed [.k], 0, 1⟩
  | .constant16 => ⟨"CONSTANT16", .fixed [.K], 0, 1⟩
  | .const0 => ⟨"CONST_0", .fixed [], 0, 1⟩
  | .const1 => ⟨"CONST_1", .fixed [], 0, 1⟩
  | .constTrue => ⟨"CONST_TRUE", .fixed [], 0, 1⟩
  | .constFalse => ⟨"CONST_FALSE", .fixed [], 0, 1⟩
  | .pushImmediateInt8 => ⟨"PUSH_IMMEDIATE_INT8", .fixed [.i], 0, 1⟩
  | .add => ⟨"ADD", .fixed [], 2, 1⟩
  | .subtract => ⟨"SUBTRACT", .fixed [], 2, 1⟩
  | .multiply => ⟨"MULTIPLY", .fixed [], 2, 1⟩
  | .divide => ⟨"DIVIDE", .fixed [], 2, 1⟩
  | .negate => ⟨"NEGATE", .fixed [], 1, 1⟩
  | .not => ⟨"NOT", .fixed [], 1, 1⟩
  | .toBool => ⟨"TO_BOOL", .fixed [], 1, 1⟩
  | .equal => ⟨"EQUAL", .fixed [], 2, 1⟩
  | .notEqual => ⟨"NOT_EQUAL", .fixed [], 2, 1⟩
  | .greater => ⟨"GREATER", .fixed [], 2, 1⟩
  | .greaterEqual => ⟨"GREATER_EQUAL", .fixed [], 2, 1⟩
  | .less => ⟨"LESS", .fixed [], 2, 1⟩
  | .lessEqual => ⟨"LESS_EQUAL", .fixed [], 2, 1⟩
  | .intDiv => ⟨"INT_DIV", .fixed [], 2, 1⟩
  | .mod => ⟨"MOD", .fixed [], 2, 1⟩
  | .and => ⟨"AND", .fixed [], 2, 1⟩
  | .or => ⟨"OR", .fixed [], 2, 1⟩
  | .xor => ⟨"XOR", .fixed [], 2, 1⟩
  | .shl => ⟨"SHL", .fixed [], 2, 1⟩
  | .shr => ⟨"SHR", .fixed [], 2, 1⟩
  | .jumpIfFalse => ⟨"JUMP_IF_FALSE", .fixed [.j], 1, 0⟩
  | .jump => ⟨"JUMP", .fixed [.j], 0, 0⟩
  | .swap => ⟨"SWAP", .fixed [], 2, 2⟩
  | .dup => ⟨"DUP", .fixed [], 1, 2⟩
  | .defineGlobal => ⟨"DEFINE_GLOBAL", .variable, 0, 0⟩
  | .defineGlobal16 => ⟨"DEFINE_GLOBAL16", .variable, 0, 0⟩
  | .getGlobal => ⟨"GET_GLOBAL", .fixed [.k, .c], 0, 1⟩
  | .setGlobal => ⟨"SET_GLOBAL", .fixed [.k, .c], 1, 0⟩
  | .getGlobalAddress => ⟨"GET_GLOBAL_ADDRESS", .fixed [.k], 0, 1⟩
  | .getGlobal16 => ⟨"GET_GLOBAL16", .fixed [.K, .c], 0, 1⟩
  | .setGlobal16 => ⟨"SET_GLOBAL16", .fixed [.K, .c], 1, 0⟩
  | .getGlobalAddress16 => ⟨"GET_GLOBAL_ADDRESS16", .fixed [.K], 0, 1⟩
  | .getGlobalCached => ⟨"GET_GLOBAL_CACHED", .fixed [.k, .C], 0, 1⟩
  | .setGlobalCached => ⟨"SET_GLOBAL_CACHED", .fixed [.k, .C], 1, 0⟩
  | .getGlobal16Cached => ⟨"GET_GLOBAL16_CACHED", .fixed [.K, .C], 0, 1⟩
  | .setGlobal16Cached => ⟨"SET_GLOBAL16_CACHED", .fixed [.K, .C], 1, 0⟩
  | .getLocal => ⟨"GET_LOCAL", .fixed [.b], 0, 1⟩
  | .setLocal => ⟨"SET_LOCAL", .fixed [.b], 1, 0⟩
  | .incLocal => ⟨"INC_LOCAL", .fixed [.b], 0, 0⟩
  | .decLocal => ⟨"DEC_LOCAL", .fixed [.b], 0, 0⟩
  | .initLocalArray => ⟨"INIT_LOCAL_ARRAY", .variable, -1, 0⟩
  | .initLocalFile => ⟨"INIT_LOCAL_FILE", .fixed [.b, .b, .K], 0, 0⟩
  | .initLocalPointer => ⟨"INIT_LOCAL_POINTER", .fixed [.b, .K], 0, 0⟩
  | .initLocalString => ⟨"INIT_LOCAL_STRING", .fixed [.b, .b], 0, 0⟩
  | .initFieldArray => ⟨"INIT_FIELD_ARRAY", .variable, -1, 1⟩
  | .getLocalAddress => ⟨"GET_LOCAL_ADDRESS", .fixed [.b], 0, 1⟩
  | .getUpvalue => ⟨"GET_UPVALUE", .fixed [.b], 0, 1⟩
  | .setUpvalue => ⟨"SET_UPVALUE", .fixed [.b], 1, 0⟩
  | .getUpvalueAddress => ⟨"GET_UPVALUE_ADDRESS", .fixed [.b], 0, 1⟩
  | .getFieldAddress => ⟨"GET_FIELD_ADDRESS", .fixed [.k], 1, 1⟩
  | .getFieldAddress16 => ⟨"GET_FIELD_ADDRESS16", .fixed [.K], 1, 1⟩
  | .getFieldAddressKeep => ⟨"GET_FIELD_ADDRESS_KEEP", .fixed [.k], 1, 2⟩
  | .getFieldAddressKeep16 => ⟨"GET_FIELD_ADDRESS_KEEP16", .fixed [.K], 1, 2⟩
  | .loadFieldValueByName => ⟨"LOAD_FIELD_VALUE_BY_NAME", .fixed [.k], 1, 1⟩
  | .loadFieldValueByName16 => ⟨"LOAD_FIELD_VALUE_BY_NAME16", .fixed [.K], 1, 1⟩
  | .getElementAddress => ⟨"GET_ELEMENT_ADDRESS", .fixed [.b], -1, 1⟩
  | .getElementAddressConst => ⟨"GET_ELEMENT_ADDRESS_CONST", .fixed [.f], 1, 1⟩
  | .loadElementValue => ⟨"LOAD_ELEMENT_VALUE", .fixed [.b], -1, 1⟩
  | .loadElementValueConst => ⟨"LOAD_ELEMENT_VALUE_CONST", .fixed [.f], 1, 1⟩
  | .getCharAddress => ⟨"GET_CHAR_ADDRESS", .fixed [], 2, 1⟩
  | .setIndirect => ⟨"SET_INDIRECT", .fixed [], 2, 0⟩
  | .getIndirect => ⟨"GET_INDIRECT", .fixed [], 1, 1⟩
  | .inOp => ⟨"IN", .fixed [], 2, 1⟩
  | .makeSetSingleton => ⟨"MAKE_SET_SINGLETON", .fixed [], 1, 1⟩
  | .makeSetRange => ⟨"MAKE_SET_RANGE", .fixed [], 2, 1⟩
  | .getCharFromString => ⟨"GET_CHAR_FROM_STRING", .fixed [], 2, 1⟩
  | .allocObject => ⟨"ALLOC_OBJECT", .fixed [.b], 0, 1⟩
  | .allocObject16 => ⟨"ALLOC_OBJECT16", .fixed [.w], 0, 1⟩
  | .getFieldOffset => ⟨"GET_FIELD_OFFSET", .fixed [.b], 1, 1⟩
  | .getFieldOffset16 => ⟨"GET_FIELD_OFFSET16", .fixed [.w], 1, 1⟩
  | .loadFieldValue => ⟨"LOAD_FIELD_VALUE", .fixed [.b], 1, 1⟩
  | .loadFieldValue16 => ⟨"LOAD_FIELD_VALUE16", .fixed [.w], 1, 1⟩
  | .callBuiltin => ⟨"CALL_BUILTIN", .fixed [.K, .b], -1, -1⟩
  | .callBuiltinProc => ⟨"CALL_BUILTIN_PROC", .fixed [.w, .K, .b], -1, 0⟩
  | .callUserProc => ⟨"CALL_USER_PROC", .fixed [.K, .b], -1, -1⟩
  | .callHost => ⟨"CALL_HOST", .fixed [.b], -1, 1⟩
  | .pop => ⟨"POP", .fixed [], 1, 0⟩
  | .call => ⟨"CALL", .fixed [.K, .W, .b], -1, -1⟩
  | .callIndirect => ⟨"CALL_INDIRECT", .fixed [.b], -1, -1⟩
  | .callMethod => ⟨"CALL_METHOD", .fixed [.b, .b], -1, -1⟩
  | .procCallIndirect => ⟨"PROC_CALL_INDIRECT", .fixed [.b], -1, 0⟩
  | .halt => ⟨"HALT", .fixed [], 0, 0⟩
  | .exit => ⟨"EXIT", .fixed [], -1, 0⟩
  | .formatValue => ⟨"FORMAT_VALUE", .fixed [.b, .i], 1, 1⟩
  | .threadCreate => ⟨"THREAD_CREATE", .fixed [.W], 0, 1⟩
  | .threadJoin => ⟨"THREAD_JOIN", .fixed [], 1, 0⟩
  | .mutexCreate => ⟨"MUTEX_CREATE", .fixed [], 0, 1⟩
  | .rcmutexCreate => ⟨"RCMUTEX_CREATE", .fixed [], 0, 1⟩
  | .mutexLock => ⟨"MUTEX_LOCK", .fixed [], 1, 0⟩
  | .mutexUnlock => ⟨"MUTEX_UNLOCK", .fixed [], 1, 0⟩
  | .mutexDestroy => ⟨"MUTEX_DESTROY", .fixed [], 1, 0⟩
  | .resetLocal => ⟨"RESET_LOCAL", .fixed [.b], 0, 0⟩
  | .defineGlobalSlot => ⟨"DEFINE_GLOBAL_SLOT", .variable, 0, 0⟩
  | .getGslot => ⟨"GET_GSLOT", .fixed [.s], 0, 1⟩
  | .setGslot => ⟨"SET_GSLOT", .fixed [.s], 1, 0⟩
  | .getGslotAddress => ⟨"GET_GSLOT_ADDRESS", .fixed [.s], 0, 1⟩
  | .pushTypeDefault => ⟨"PUSH_TYPE_DEFAULT", .fixed [.b, .K], 0, 1⟩
  | .formatValue16 => ⟨"FORMAT_VALUE16", .fixed [.w, .w], 1, 1⟩

def pscalOpcodeInfo (byte : UInt8) : Option OpcodeInfo := (OpCode.ofByte byte).map OpCode.info

theorem pscalOpcodeInfo_eq_some (byte : UInt8) (info : OpcodeInfo) :
    pscalOpcodeInfo byte = some info ↔ ∃ op, OpCode.ofByte byte = some op ∧ op.info = info := by
  simp [pscalOpcodeInfo, Option.map_eq_some_iff]

end Pscal
