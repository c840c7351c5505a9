import Mathlib

/-!
# Value types and values

`VarType` is the enumeration of `var_type.h`, in its order.  A `Value` is a tagged word: an
int-like scalar, a real, a string, an enum, an array, or a handle to another heap object.  The
tag of each kind is an enumeration of its own (`IntType`, `RealType`, `StringType`, `HeapType`),
so that a value cannot carry a payload its tag does not have.
-/

namespace Pscal

inductive VarType where
  | unknown | void | int32 | double | string | char | record | file | byte | word | enum | array
  | boolean | memorystream | set | pointer | interface | closure | int8 | uint8 | int16 | uint16
  | uint32 | int64 | uint64 | float | longDouble | nil | thread | widechar | unicodeString
  | task | channel | map
deriving DecidableEq, Repr

namespace VarType

def all : List VarType :=
  [.unknown, .void, .int32, .double, .string, .char, .record, .file, .byte, .word, .enum, .array,
   .boolean, .memorystream, .set, .pointer, .interface, .closure, .int8, .uint8, .int16, .uint16,
   .uint32, .int64, .uint64, .float, .longDouble, .nil, .thread, .widechar, .unicodeString,
   .task, .channel, .map]

/-- the cast `(VarType)byte` of a byte of the code stream (`none`: no such member) -/
def ofByte (byte : UInt8) : Option VarType := all[byte.toNat]?

/-- `varTypeToString` -/
def toString : VarType → String
  | .void => "VOID" | .int32 => "INTEGER" | .double => "REAL" | .string => "STRING"
  | .unicodeString => "UNICODESTRING" | .char => "CHAR" | .widechar => "WIDECHAR"
  | .record => "RECORD" | .file => "FILE" | .byte => "BYTE" | .word => "WORD" | .enum => "ENUM"
  | .array => "ARRAY" | .boolean => "BOOLEAN" | .memorystream => "MEMORY_STREAM" | .set => "SET"
  | .pointer => "POINTER" | .interface => "INTERFACE" | .closure => "CLOSURE" | .int8 => "INT8"
  | .uint8 => "UINT8" | .int16 => "INT16" | .uint16 => "UINT16" | .uint32 => "UINT32"
  | .int64 => "INT64" | .uint64 => "UINT64" | .float => "REAL" | .longDouble => "LONG_DOUBLE"
  | .nil => "NIL" | .thread => "THREAD" | .task => "TASK" | .channel => "CHANNEL" | .map => "MAP"
  | .unknown => "UNKNOWN_VAR_TYPE"

end VarType

/-- the types `isIntlikeType` accepts -/
inductive IntType where
  | int8 | uint8 | int16 | uint16 | int32 | uint32 | int64 | uint64 | byte | word
  | boolean | char | widechar | thread
deriving DecidableEq, Repr

/-- the types `isRealType` accepts -/
inductive RealType where
  | float | double | longDouble
deriving DecidableEq, Repr

/-- the types `isPascalStringType` accepts -/
inductive StringType where
  | string | unicodeString
deriving DecidableEq, Repr

/-- every other type of a value that is not an enum or an array -/
inductive HeapType where
  | unknown | void | record | file | memorystream | set | pointer | interface | closure | nil
  | task | channel | map
deriving DecidableEq, Repr

def IntType.varType : IntType → VarType
  | .int8 => .int8 | .uint8 => .uint8 | .int16 => .int16 | .uint16 => .uint16
  | .int32 => .int32 | .uint32 => .uint32 | .int64 => .int64 | .uint64 => .uint64
  | .byte => .byte | .word => .word | .boolean => .boolean | .char => .char
  | .widechar => .widechar | .thread => .thread

def RealType.varType : RealType → VarType
  | .float => .float | .double => .double | .longDouble => .longDouble

def StringType.varType : StringType → VarType
  | .string => .string | .unicodeString => .unicodeString

def HeapType.varType : HeapType → VarType
  | .unknown => .unknown | .void => .void | .record => .record | .file => .file
  | .memorystream => .memorystream | .set => .set | .pointer => .pointer
  | .interface => .interface | .closure => .closure | .nil => .nil | .task => .task
  | .channel => .channel | .map => .map

/-- A value.  Strings are C strings, one `Char` a byte (`none`: a null buffer); reals are kept by
their bit pattern; `obj` is the identity of a heap object. -/
inductive Value where
  | scalar (t : IntType) (v : Int)
  | real (t : RealType) (bits : Nat)
  | str (t : StringType) (s : Option String)
  | enum (name : String) (ordinal : Int)
  | array (elem : VarType) (elems : List Value)
  | boxed (t : HeapType) (obj : Nat)
deriving Repr

def Value.type : Value → VarType
  | .scalar t _ => t.varType
  | .real t _ => t.varType
  | .str t _ => t.varType
  | .enum _ _ => .enum
  | .array _ _ => .array
  | .boxed t _ => t.varType

end Pscal
