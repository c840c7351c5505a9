import Mathlib
import Pscal.Cache.Values

/-!
# Tagged words

`core/obj_header.h` and `core/types.h`: a value is its type and a word.  A word of the reserved
NaN region is a pointer or an immediate with its kind; every other word is a double.  Floating-point
numbers are their bit patterns.

* `pscalTagImmediate`, `pscalTagPointer`, `pscalBoxDouble`  the words;
* `Inline`, `Inline.tag`, `PscalTaggedKind.untag`  the immediates and their wrappers;
* `decodeWord`  what a word is by itself;
* `ValueStruct`, `pscalValueSetIntBits`, `pscalValueDecodeInt`  a cell of a type;
* `Payload`, `Payload.make`  what the constructors accept, and what they make of it.
-/

namespace Pscal.TaggedWord

/-! ## words -/

def pscalNanboxHeaderMask : UInt64 := (0x1FFF : UInt64) <<< 51

def pscalNanboxHeader : UInt64 := (0x0FFF : UInt64) <<< 51

def pscalWordIsNanBoxTag (bits : UInt64) : Bool := bits &&& pscalNanboxHeaderMask = pscalNanboxHeader

def pscalUnboxDouble (bits : UInt64) : UInt64 := bits

def pscalObjPointerFitsPayload (ptr : UInt64) : Bool := ptr >>> 50 = 0

inductive PscalTaggedKind where
  | void | nil | boolean | char | widechar | byte | word | int8 | uint8 | int16 | uint16 | int32
  | uint32 | float
deriving DecidableEq, Repr

namespace PscalTaggedKind

def all : List PscalTaggedKind :=
  [.void, .nil, .boolean, .char, .widechar, .byte, .word, .int8, .uint8, .int16, .uint16, .int32,
   .uint32, .float]

def code (kind : PscalTaggedKind) : UInt64 := UInt64.ofNat (all.idxOf kind)

/-- `none`: a kind that is reserved -/
def ofCode (n : UInt64) : Option PscalTaggedKind := all[n.toNat]?

theorem ofCode_code (kind : PscalTaggedKind) : ofCode kind.code = some kind := by
  cases kind <;> rfl

end PscalTaggedKind

def pscalTagDiscriminantBit : UInt64 := (1 : UInt64) <<< 50

def pscalTagPointerPayloadMask : UInt64 := ((1 : UInt64) <<< 50) - 1

def pscalTagKindShift : UInt64 := 45

def pscalTagKindMask : UInt64 := (0x1F : UInt64) <<< pscalTagKindShift

def pscalTagImmediatePayloadMask : UInt64 := ((1 : UInt64) <<< 45) - 1

def pscalTaggedWordIsPointer (word : UInt64) : Bool := word &&& pscalTagDiscriminantBit = 0

def pscalTagPointer (ptr : UInt64) : UInt64 :=
  pscalNanboxHeader ||| (ptr &&& pscalTagPointerPayloadMask)

def pscalUntagPointer (word : UInt64) : UInt64 := word &&& pscalTagPointerPayloadMask

def pscalTagImmediate (kind : PscalTaggedKind) (rawPayload : UInt64) : UInt64 :=
  let kindBits := (kind.code <<< pscalTagKindShift) &&& pscalTagKindMask
  let payload := rawPayload &&& pscalTagImmediatePayloadMask
  pscalNanboxHeader ||| pscalTagDiscriminantBit ||| kindBits ||| payload

def pscalTaggedWordKind (word : UInt64) : Option PscalTaggedKind :=
  PscalTaggedKind.ofCode ((word &&& pscalTagKindMask) >>> pscalTagKindShift)

def pscalTaggedWordPayload (word : UInt64) : UInt64 := word &&& pscalTagImmediatePayloadMask

/-! ## immediates -/

def pscalTagVoid : UInt64 := pscalTagImmediate .void 0
def pscalTagNil : UInt64 := pscalTagImmediate .nil 0

def pscalTagBoolean (b : Bool) : UInt64 := pscalTagImmediate .boolean (if b then 1 else 0)
def pscalUntagBoolean (word : UInt64) : Bool := pscalTaggedWordPayload word &&& 1 ≠ 0

def pscalTagChar (c : UInt8) : UInt64 := pscalTagImmediate .char c.toUInt64
def pscalUntagChar (word : UInt64) : UInt8 := (pscalTaggedWordPayload word).toUInt8

def pscalTagWideChar (codepoint : UInt32) : UInt64 := pscalTagImmediate .widechar codepoint.toUInt64
def pscalUntagWideChar (word : UInt64) : UInt32 := (pscalTaggedWordPayload word).toUInt32

def pscalTagByte (b : UInt8) : UInt64 := pscalTagImmediate .byte b.toUInt64
def pscalUntagByte (word : UInt64) : UInt8 := (pscalTaggedWordPayload word).toUInt8

def pscalTagWord (w : UInt16) : UInt64 := pscalTagImmediate .word w.toUInt64
def pscalUntagWord (word : UInt64) : UInt16 := (pscalTaggedWordPayload word).toUInt16

def pscalTagInt8 (v : Int8) : UInt64 := pscalTagImmediate .int8 v.toUInt8.toUInt64
def pscalUntagInt8 (word : UInt64) : Int8 := (pscalTaggedWordPayload word).toUInt8.toInt8

def pscalTagUInt8 (v : UInt8) : UInt64 := pscalTagImmediate .uint8 v.toUInt64
def pscalUntagUInt8 (word : UInt64) : UInt8 := (pscalTaggedWordPayload word).toUInt8

def pscalTagInt16 (v : Int16) : UInt64 := pscalTagImmediate .int16 v.toUInt16.toUInt64
def pscalUntagInt16 (word : UInt64) : Int16 := (pscalTaggedWordPayload word).toUInt16.toInt16

def pscalTagUInt16 (v : UInt16) : UInt64 := pscalTagImmediate .uint16 v.toUInt64
def pscalUntagUInt16 (word : UInt64) : UInt16 := (pscalTaggedWordPayload word).toUInt16

def pscalTagInt32 (v : Int32) : UInt64 := pscalTagImmediate .int32 v.toUInt32.toUInt64
def pscalUntagInt32 (word : UInt64) : Int32 := (pscalTaggedWordPayload word).toUInt32.toInt32

def pscalTagUInt32 (v : UInt32) : UInt64 := pscalTagImmediate .uint32 v.toUInt64
def pscalUntagUInt32 (word : UInt64) : UInt32 := (pscalTaggedWordPayload word).toUInt32

def pscalTagFloat (bits : UInt32) : UInt64 := pscalTagImmediate .float bits.toUInt64
def pscalUntagFloat (word : UInt64) : UInt32 := (pscalTaggedWordPayload word).toUInt32

inductive Inline where
  | void | nil
  | boolean (b : Bool)
  | char (c : UInt8)
  | widechar (codepoint : UInt32)
  | byte (b : UInt8)
  | word (w : UInt16)
  | int8 (v : Int8)
  | uint8 (v : UInt8)
  | int16 (v : Int16)
  | uint16 (v : UInt16)
  | int32 (v : Int32)
  | uint32 (v : UInt32)
  | float (bits : UInt32)
deriving DecidableEq, Repr

def Inline.tag : Inline → UInt64
  | .void => pscalTagVoid
  | .nil => pscalTagNil
  | .boolean b => pscalTagBoolean b
  | .char c => pscalTagChar c
  | .widechar codepoint => pscalTagWideChar codepoint
  | .byte b => pscalTagByte b
  | .word w => pscalTagWord w
  | .int8 v => pscalTagInt8 v
  | .uint8 v => pscalTagUInt8 v
  | .int16 v => pscalTagInt16 v
  | .uint16 v => pscalTagUInt16 v
  | .int32 v => pscalTagInt32 v
  | .uint32 v => pscalTagUInt32 v
  | .float bits => pscalTagFloat bits

def PscalTaggedKind.untag (word : UInt64) : PscalTaggedKind → Inline
  | .void => .void
  | .nil => .nil
  | .boolean => .boolean (pscalUntagBoolean word)
  | .char => .char (pscalUntagChar word)
  | .widechar => .widechar (pscalUntagWideChar word)
  | .byte => .byte (pscalUntagByte word)
  | .word => .word (pscalUntagWord word)
  | .int8 => .int8 (pscalUntagInt8 word)
  | .uint8 => .uint8 (pscalUntagUInt8 word)
  | .int16 => .int16 (pscalUntagInt16 word)
  | .uint16 => .uint16 (pscalUntagUInt16 word)
  | .int32 => .int32 (pscalUntagInt32 word)
  | .uint32 => .uint32 (pscalUntagUInt32 word)
  | .float => .float (pscalUntagFloat word)

inductive Word where
  | double (bits : UInt64)
  | pointer (ptr : UInt64)
  | inline (value : Inline)
deriving DecidableEq, Repr

/-- by the tests of the header, in their order (`none`: a kind that is reserved) -/
def decodeWord (word : UInt64) : Option Word :=
  if pscalWordIsNanBoxTag word = false then some (.double (pscalUnboxDouble word))
  else if pscalTaggedWordIsPointer word then some (.pointer (pscalUntagPointer word))
  else (pscalTaggedWordKind word).map fun kind => .inline (kind.untag word)

/-! ## cells -/

/-- `Value` of `core/types.h` -/
structure ValueStruct where
  type : VarType
  bits : UInt64
deriving DecidableEq, Repr

def pscalValueSetIntBits (dest : ValueStruct) (val : Int64) : ValueStruct :=
  match dest.type with
  | .boolean => { dest with bits := pscalTagBoolean (val ≠ 0) }
  | .char => { dest with bits := pscalTagChar val.toUInt64.toUInt8 }
  | .widechar => { dest with bits := pscalTagWideChar val.toUInt64.toUInt32 }
  | .byte => { dest with bits := pscalTagByte val.toUInt64.toUInt8 }
  | .word => { dest with bits := pscalTagWord val.toUInt64.toUInt16 }
  | .int8 => { dest with bits := pscalTagInt8 val.toInt8 }
  | .uint8 => { dest with bits := pscalTagUInt8 val.toUInt64.toUInt8 }
  | .int16 => { dest with bits := pscalTagInt16 val.toInt16 }
  | .uint16 => { dest with bits := pscalTagUInt16 val.toUInt64.toUInt16 }
  | .int32 | .thread => { dest with bits := pscalTagInt32 val.toInt32 }
  | .uint32 => { dest with bits := pscalTagUInt32 val.toUInt64.toUInt32 }
  | .int64 | .uint64 => { dest with bits := val.toUInt64 }
  | _ => dest

def pscalValueDecodeInt (v : ValueStruct) : Int64 :=
  match v.type with
  | .boolean => if pscalUntagBoolean v.bits then 1 else 0
  | .char => (pscalUntagChar v.bits).toUInt64.toInt64
  | .widechar => (pscalUntagWideChar v.bits).toUInt64.toInt64
  | .byte => (pscalUntagByte v.bits).toUInt64.toInt64
  | .word => (pscalUntagWord v.bits).toUInt64.toInt64
  | .int8 => (pscalUntagInt8 v.bits).toInt64
  | .uint8 => (pscalUntagUInt8 v.bits).toUInt64.toInt64
  | .int16 => (pscalUntagInt16 v.bits).toInt64
  | .uint16 => (pscalUntagUInt16 v.bits).toUInt64.toInt64
  | .int32 | .thread => (pscalUntagInt32 v.bits).toInt64
  | .uint32 => (pscalUntagUInt32 v.bits).toUInt64.toInt64
  | .int64 | .uint64 => v.bits.toInt64
  | _ => 0

def pscalValueDecodeUInt (v : ValueStruct) : UInt64 :=
  match v.type with
  | .boolean => if pscalUntagBoolean v.bits then 1 else 0
  | .char => (pscalUntagChar v.bits).toUInt64
  | .widechar => (pscalUntagWideChar v.bits).toUInt64
  | .byte => (pscalUntagByte v.bits).toUInt64
  | .word => (pscalUntagWord v.bits).toUInt64
  | .int8 => (pscalUntagInt8 v.bits).toInt64.toUInt64
  | .uint8 => (pscalUntagUInt8 v.bits).toUInt64
  | .int16 => (pscalUntagInt16 v.bits).toInt64.toUInt64
  | .uint16 => (pscalUntagUInt16 v.bits).toUInt64
  | .int32 | .thread => (pscalUntagInt32 v.bits).toInt64.toUInt64
  | .uint32 => (pscalUntagUInt32 v.bits).toUInt64
  | .int64 | .uint64 => v.bits
  | _ => 0

def pscalValueSetHeapPtrBits (dest : ValueStruct) (ptr : UInt64) : ValueStruct :=
  { dest with bits := pscalTagPointer ptr }

/-- the types whose word is a pointer; `TYPE_LONG_DOUBLE` has its box -/
def onHeap : VarType → Bool
  | .string | .unicodeString | .array | .record | .file | .enum | .pointer | .set | .memorystream
  | .longDouble | .closure | .interface | .task | .channel | .map => true
  | _ => false

/-- what the constructors accept, numbers of every type as a `long long` -/
inductive Payload where
  | void | nil
  | integer (t : IntType) (val : Int64)
  | float (bits : UInt32)
  | double (bits : UInt64)
  | object (t : VarType) (heap : onHeap t = true) (ptr : UInt64)
    (fits : pscalObjPointerFitsPayload ptr = true)

def Payload.type : Payload → VarType
  | .void => .void
  | .nil => .nil
  | .integer t _ => t.varType
  | .float _ => .float
  | .double _ => .double
  | .object t _ _ _ => t

def Payload.make : Payload → ValueStruct
  | .void => { type := .void, bits := pscalTagVoid }
  | .nil => { type := .nil, bits := pscalTagNil }
  | .integer t val => pscalValueSetIntBits { type := t.varType, bits := 0 } val
  | .float bits => { type := .float, bits := pscalTagFloat bits }
  | .double bits => { type := .double, bits := pscalBoxDouble bits }
  | .object t _ ptr _ => pscalValueSetHeapPtrBits { type := t, bits := 0 } ptr

end Pscal.TaggedWord
