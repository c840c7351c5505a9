import Pscal.Cache.Codec
import Pscal.Core.Scalar
import Pscal.Lib.OrderedMap
import Pscal.VM.DeepEqual

/-!
# The value codec of the cache

`core/cache.c`: how a value is written and read back.

* `PointerObj`, `CacheValue`  the values, with the objects their pointers lead to;
* `writeValue`, `writePointerValue`  the writer (`none`: it returns false);
* `readValue`, `readPointerValue`  the reader, with the levels of nesting that are left.

What the code takes from elsewhere is a `CodecOps`: the conversions of the floating-point types,
and the codec of a shell function, a whole chunk with its own sections.
-/

namespace Pscal

open Wire Wire.Reader

/-! ## types -/

def VarType.code (t : VarType) : UInt32 := UInt32.ofNat (VarType.all.idxOf t)

/-- the cast `(VarType)n` (`none`: no such member) -/
def VarType.ofCode (n : UInt32) : Option VarType := VarType.all[n.toNat]?

theorem VarType.ofCode_code (t : VarType) : VarType.ofCode t.code = some t := by
  cases t <;> rfl

/-! ## reals -/

/-- the word of a stored double: a pattern of the tagged region gets its sign bit -/
def pscalBoxDouble (bits : UInt64) : UInt64 :=
  let headerMask := (0x1FFF : UInt64) <<< 51
  let header := (0x0FFF : UInt64) <<< 51
  let signBit := (1 : UInt64) <<< 63
  if bits &&& headerMask = header then bits ||| signBit else bits

/-! ## objects -/

structure CString where
  bytes : Bytes
  noNul : 0 ∉ bytes
deriving DecidableEq, Repr

def CString.empty : CString := { bytes := [], noNul := by simp }

def CString.ofBuffer (buf : Bytes) : CString where
  bytes := buf.takeWhile (· ≠ 0)
  noNul h := by simpa using List.all_eq_true.mp List.all_takeWhile 0 h

structure StringObj where
  maxLength : Int32 := -1
  buffer : Option CString
deriving DecidableEq, Repr

structure EnumObj where
  enumName : Option CString
  ordinal : Int32
deriving DecidableEq, Repr

/-- the markers in the place of a base type that say a text is pointed to -/
inductive CharPtrSentinel where
  | stringCharPtr | serializedCharPtr
deriving DecidableEq, Repr

inductive PointerSentinel where
  | opaquePointer | stringLength | byteArrayPtr | ownedPointer
deriving DecidableEq, Repr

/-- `PointerObj` by its base type.  The text of a `charPtr` and the function of a `function` are
those at the address (`none`: there is none); the tree of a `typed` pointer may be null. -/
inductive PointerObj (κ : Type) where
  | charPtr (base : CharPtrSentinel) (text : Option CString)
  | function (fn : Option κ)
  | typed (base : TypeAst) (address : UInt64)
  | marked (base : PointerSentinel) (address : UInt64)
deriving Repr

inductive HandleType where
  | task | channel
deriving DecidableEq, Repr

def HandleType.varType : HandleType → VarType
  | .task => .task | .channel => .channel

inductive OtherType where
  | unknown | record | file | interface | closure
deriving DecidableEq, Repr

def OtherType.varType : OtherType → VarType
  | .unknown => .unknown | .record => .record | .file => .file | .interface => .interface
  | .closure => .closure

/-- A value, with the objects it leads to (`none`: a null pointer).  An array comes with the
bounds of its dimensions and its elements, packed bytes or values; a map with its live entries in
order; a memory stream with its contents. -/
inductive CacheValue (κ : Type) where
  | scalar (s : Scalar)
  | float (bits : UInt32)
  | double (word : UInt64)
  | longDouble (bits : Nat)
  | void
  | nil
  | handle (t : HandleType) (live : Bool)
  | str (t : StringType) (obj : Option StringObj)
  | enum (obj : Option EnumObj)
  | set (obj : Option (List Int64))
  | nullArray
  | array (elementType : UInt32) (isDynamic : Bool) (bounds : List (Int32 × Int32))
      (elements : List (CacheValue κ))
  | packedArray (elementType : UInt32) (isDynamic : Bool) (bounds : List (Int32 × Int32))
      (raw : Option Bytes)
  | nullMap
  | map (valueType : UInt32) (entries : List (Bytes × CacheValue κ))
  | mstream (contents : Option Bytes)
  | pointer (obj : Option (PointerObj κ))
  | other (t : OtherType)

structure CodecOps (σ κ : Type) where
  /-- `(double)` of a `long double` -/
  doubleOfLd : Nat → UInt64
  /-- `(long double)` of a `double` -/
  ldOfDouble : UInt64 → Nat
  /-- `(float)(long double)` of a `float` -/
  floatOfFloat : UInt32 → UInt32
  /-- `(double)(long double)` of an integer -/
  doubleOfInt : Int → UInt64
  /-- the version and the sections of a shell function -/
  writeFunction : κ → Option Bytes
  /-- and their reader, with the levels of nesting that are left -/
  readFunction : Nat → Reader σ κ

/-! ## arrays -/

/-- the loop of `arrayCodecElementCount` -/
def elementCountLoop : List (Int32 × Int32) → Nat → Option Nat
  | [], total => some total
  | (lb, ub) :: bounds, total =>
    let span := ub.toInt - lb.toInt + 1
    if span ≤ 0 then some 0
    else if (2 ^ 31 - 1) / total < span.toNat then none
    else elementCountLoop bounds (total * span.toNat)

/-- how many elements are stored for an array with these bounds (`none`: `-1`) -/
def arrayCodecElementCount (bounds : List (Int32 × Int32)) : Option Nat :=
  if bounds = [] then some 0 else elementCountLoop bounds 1

def isPackedByteElementType (t : UInt32) : Bool := t = VarType.byte.code

/-! ## maps -/

def kCp437ToUnicode : List Nat :=
  [0x00C7, 0x00FC, 0x00E9, 0x00E2, 0x00E4, 0x00E0, 0x00E5, 0x00E7,
   0x00EA, 0x00EB, 0x00E8, 0x00EF, 0x00EE, 0x00EC, 0x00C4, 0x00C5,
   0x00C9, 0x00E6, 0x00C6, 0x00F4, 0x00F6, 0x00F2, 0x00FB, 0x00F9,
   0x00FF, 0x00D6, 0x00DC, 0x00A2, 0x00A3, 0x00A5, 0x20A7, 0x0192,
   0x00E1, 0x00ED, 0x00F3, 0x00FA, 0x00F1, 0x00D1, 0x00AA, 0x00BA,
   0x00BF, 0x2310, 0x00AC, 0x00BD, 0x00BC, 0x00A1, 0x00AB, 0x00BB,
   0x2591, 0x2592, 0x2593, 0x2502, 0x2524, 0x2561, 0x2562, 0x2556,
   0x2555, 0x2563, 0x2551, 0x2557, 0x255D, 0x255C, 0x255B, 0x2510,
   0x2514, 0x2534, 0x252C, 0x251C, 0x2500, 0x253C, 0x255E, 0x255F,
   0x255A, 0x2554, 0x2569, 0x2566, 0x2560, 0x2550, 0x256C, 0x2567,
   0x2568, 0x2564, 0x2565, 0x2559, 0x2558, 0x2552, 0x2553, 0x256B,
   0x256A, 0x2518, 0x250C, 0x2588, 0x2584, 0x258C, 0x2590, 0x2580,
   0x03B1, 0x00DF, 0x0393, 0x03C0, 0x03A3, 0x03C3, 0x00B5, 0x03C4,
   0x03A6, 0x0398, 0x03A9, 0x03B4, 0x221E, 0x03C6, 0x03B5, 0x2229,
   0x2261, 0x00B1, 0x2265, 0x2264, 0x2320, 0x2321, 0x00F7, 0x2248,
   0x00B0, 0x2219, 0x00B7, 0x221A, 0x207F, 0x00B2, 0x25A0, 0x00A0]

def encodePascalCharUtf8 (value : Nat) : Bytes :=
  encodeUtf8Codepoint
    (if value ≤ 0x7F then value else kCp437ToUnicode.getD (value - 0x80) 0xFFFD)

section
variable {σ κ : Type}

/-- `mapCoerceStored` of a scalar (`none`: it is stored as it is) -/
def coerceScalar (ops : CodecOps σ κ) (want : UInt32) (s : Scalar) : Option (CacheValue κ) :=
  if (want = VarType.float.code ∨ want = VarType.double.code ∨ want = VarType.longDouble.code) ∧
      s.type ≠ .boolean ∧ s.type ≠ .char then
    some (.double (pscalBoxDouble (ops.doubleOfInt s.value)))
  else if want = VarType.int64.code ∧ s.type ≠ .int64 ∧ s.type ≠ .boolean ∧ s.type ≠ .char ∧
      s.type ≠ .widechar then
    some (.scalar (Scalar.ofInt .int64 s.value))
  else if want = VarType.string.code ∨ want = VarType.unicodeString.code then
    if s.type = .char then
      let text := CString.ofBuffer (encodePascalCharUtf8 s.value.toNat)
      some (.str .unicodeString (some { buffer := some text }))
    else if s.type = .widechar then
      let text := CString.ofBuffer (encodeUtf8Codepoint s.value.toNat)
      some (.str .unicodeString (some { buffer := some text }))
    else none
  else none

def mapCoerceStored (ops : CodecOps σ κ) (want : UInt32) : CacheValue κ → CacheValue κ
  | .scalar s => (coerceScalar ops want s).getD (.scalar s)
  | v => v

/-! ## the writer -/

def writePointerValue (ops : CodecOps σ κ) : Option (PointerObj κ) → Option Bytes
  | none => some (bufU8 0)
  | some (.charPtr _ text) => do
    let text ← text
    return bufU8 2 ++ bufLenPrefixedBytes text.bytes
  | some (.function fn) => do
    let fn ← fn
    let chunk ← ops.writeFunction fn
    return bufU8 1 ++ chunk
  | some (.typed base address) =>
    if address = 0 then some (bufU8 4 ++ writeAst base)
    else some (bufU8 3 ++ bufU64LE address)
  | some (.marked base address) =>
    -- the marker of an owned target is not a tree
    if address = 0 ∧ base = .ownedPointer then none
    else some (bufU8 3 ++ bufU64LE address)

def writeScalar (s : Scalar) : Bytes :=
  if s.type = .char ∨ s.type = .widechar then bufU32LE (UInt32.ofInt s.value)
  else bufU64LE (UInt64.ofInt s.value)

/-- the number of dimensions, the element type and the bounds of an array -/
def writeArrayHead (elementType : UInt32) (bounds : List (Int32 × Int32)) : Bytes :=
  bufI32LE (Int32.ofNat bounds.length) ++ bufU32LE elementType ++
    bounds.flatMap fun b => bufI32LE b.1 ++ bufI32LE b.2

/-- the bytes of a packed array, each as a `BYTE` value -/
def writePackedBytes (raw : Bytes) : Bytes :=
  raw.flatMap fun b => bufU32LE VarType.byte.code ++ bufU64LE b.toUInt64

/-- `v->type` -/
def CacheValue.type : CacheValue κ → VarType
  | .scalar s => s.type.varType
  | .float _ => .float
  | .double _ => .double
  | .longDouble _ => .longDouble
  | .void => .void
  | .nil => .nil
  | .handle t _ => t.varType
  | .str t _ => t.varType
  | .enum _ => .enum
  | .set _ => .set
  | .nullArray | .array _ _ _ _ | .packedArray _ _ _ _ => .array
  | .nullMap | .map _ _ => .map
  | .mstream _ => .memorystream
  | .pointer _ => .pointer
  | .other t => t.varType

mutual

/-- what comes after the type -/
def writePayload (ops : CodecOps σ κ) : CacheValue κ → Option Bytes
  | .scalar s => some (writeScalar s)
  | .float bits => some (bufU32LE bits)
  | .double word => some (bufU64LE word)
  | .longDouble bits => some (bufU64LE (ops.doubleOfLd bits))
  | .void | .nil => some []
  | .handle _ live => if live then none else some []
  | .str _ obj =>
    match obj.bind StringObj.buffer with
    | none => some (bufU8 0)
    | some buf => some (bufU8 1 ++ bufLenPrefixedBytes buf.bytes)
  | .enum obj =>
    let name := (obj.bind EnumObj.enumName).elim [] CString.bytes
    some (bufLenPrefixedBytes name ++ bufI32LE (obj.elim 0 EnumObj.ordinal))
  | .set obj =>
    let values := obj.getD []
    some (bufI32LE (Int32.ofNat values.length) ++ values.flatMap fun v => bufU64LE v.toUInt64)
  | .nullArray => some (writeArrayHead VarType.void.code [])
  | .array elementType _ bounds elements => do
    let total ← arrayCodecElementCount bounds
    let cells ← writeValues ops total elements
    return writeArrayHead elementType bounds ++ cells
  | .packedArray elementType _ bounds raw => do
    let total ← arrayCodecElementCount bounds
    if total = 0 then
      return writeArrayHead elementType bounds
    let raw ← raw
    return writeArrayHead elementType bounds ++ writePackedBytes (raw.take total)
  | .nullMap => some (bufU8 0)
  | .map valueType entries => do
    let cells ← writeEntries ops entries
    return bufU8 1 ++ bufU8 valueType.toUInt8 ++ bufU32LE (UInt32.ofNat entries.length) ++ cells
  | .mstream contents =>
    match contents with
    | none => some (bufU8 0)
    | some contents => some (bufU8 1 ++ bufLenPrefixedBytes contents)
  | .pointer obj => writePointerValue ops obj
  | .other _ => none

/-- the elements of an array: the first so many -/
def writeValues (ops : CodecOps σ κ) : Nat → List (CacheValue κ) → Option Bytes
  | 0, _ => some []
  | _ + 1, [] => none
  | n + 1, v :: vs => do
    let payload ← writePayload ops v
    let cells ← writeValues ops n vs
    return bufU32LE v.type.code ++ payload ++ cells

def writeEntries (ops : CodecOps σ κ) : List (Bytes × CacheValue κ) → Option Bytes
  | [] => some []
  | (key, v) :: entries => do
    let payload ← writePayload ops v
    let cells ← writeEntries ops entries
    return bufLenPrefixedBytes key ++ (bufU32LE v.type.code ++ payload) ++ cells

end

def writeValue (ops : CodecOps σ κ) (v : CacheValue κ) : Option Bytes := do
  let payload ← writePayload ops v
  return bufU32LE v.type.code ++ payload

/-! ## the reader -/

def readPointerValue (ops : CodecOps σ κ) (levels : Nat) : Reader σ (Option (PointerObj κ)) := do
  let kind ← curU8
  if ← hasError then fail
  if kind = 0 then
    return none
  else if kind = 2 then
    let text ← curLenPrefixedString
    if (← hasError) ∨ text = none then fail
    return some (.charPtr .serializedCharPtr (text.map CString.ofBuffer))
  else if kind = 3 then
    let address ← curU64LE
    if ← hasError then fail
    return some (.marked .opaquePointer address)
  else if kind = 4 then
    let base ← readAst levels
    if ← hasError then fail
    return some (.typed base 0)
  else if kind = 1 then
    let fn ← ops.readFunction levels
    return some (.function (some fn))
  else
    fail

def readInt (t : IntType) : Reader σ (CacheValue κ) := do
  let n ← curU64LE
  return .scalar (Scalar.ofInt t n.toInt64.toInt)

def readString (t : StringType) : Reader σ (CacheValue κ) := do
  let present ← curU8
  if ← hasError then fail
  if present = 0 then
    return .str t (some { buffer := none })
  let buffer ← curLenPrefixedString
  if (← hasError) ∨ buffer = none then fail
  return .str t (some { buffer := buffer.map CString.ofBuffer })

def readEnum : Reader σ (CacheValue κ) := do
  let name ← curLenPrefixedString
  if ← hasError then fail
  let name := name.getD []
  let ordinal ← curI32LE
  if ← hasError then fail
  let enumName := if name.length = 0 then none else some (CString.ofBuffer name)
  return .enum (some { enumName := enumName, ordinal := ordinal })

def readSet : Reader σ (CacheValue κ) := do
  let sz ← curI32LE
  if (← hasError) ∨ sz.toInt < 0 then fail
  let values ← times curU64LE sz.toInt.toNat
  if ← hasError then fail
  return .set (some (values.map UInt64.toInt64))

/-- `AS_INTEGER`, which `asI64` computes -/
def CacheValue.asInteger : CacheValue κ → Int
  | .scalar s => s.value.bmod (2 ^ 64)
  | _ => 0

def readArray (value : Reader σ (CacheValue κ)) : Reader σ (CacheValue κ) := do
  let dims ← curI32LE
  if (← hasError) ∨ dims.toInt < 0 then fail
  let elementType ← curU32LE
  if ← hasError then fail
  let bounds ← times (do
    let lb ← curI32LE
    let ub ← curI32LE
    return (lb, ub)) dims.toInt.toNat
  if ← hasError then fail
  match arrayCodecElementCount bounds with
  | none => fail
  | some total =>
    if (← remaining) / 4 < total then fail
    let elements ← times value total
    if isPackedByteElementType elementType then
      let raw := elements.map fun v => UInt8.ofInt v.asInteger
      return .packedArray elementType false bounds (if total = 0 then none else some raw)
    else
      return .array elementType false bounds elements

/-- the entries of a map, set one after the other -/
def readEntries (ops : CodecOps σ κ) (valueType : UInt32) (value : Reader σ (CacheValue κ)) :
    Nat → List (Bytes × CacheValue κ) → Reader σ (List (Bytes × CacheValue κ))
  | 0, m => return m
  | n + 1, m => do
    let key ← curLenPrefixedString
    if (← hasError) ∨ key = none then fail
    let item ← value
    readEntries ops valueType value n
      (OrderedMap.set m (key.getD []) (mapCoerceStored ops valueType item))

def readMap (ops : CodecOps σ κ) (value : Reader σ (CacheValue κ)) : Reader σ (CacheValue κ) := do
  let present ← curU8
  if ← hasError then fail
  if present = 0 then
    return .nullMap
  let valueType ← curU8
  let count ← curU32LE
  if ← hasError then fail
  let entries ← readEntries ops valueType.toUInt32 value count.toNat []
  return .map valueType.toUInt32 entries

def readMemoryStream : Reader σ (CacheValue κ) := do
  let present ← curU8
  if ← hasError then fail
  if present = 0 then
    return .mstream none
  let contents ← curLenPrefixedString
  if (← hasError) ∨ contents = none then fail
  return .mstream contents

/-- the switch of `readValueNested`, where `value` reads a value one level down -/
def readPayload (ops : CodecOps σ κ) (levels : Nat) (value : Reader σ (CacheValue κ)) :
    VarType → Reader σ (CacheValue κ)
  | .int32 => readInt .int32
  | .word => readInt .word
  | .byte => readInt .byte
  | .boolean => readInt .boolean
  | .int8 => readInt .int8
  | .int16 => readInt .int16
  | .int64 => readInt .int64
  | .uint8 => readInt .uint8
  | .uint16 => readInt .uint16
  | .uint32 => readInt .uint32
  | .uint64 => readInt .uint64
  | .float => do
    let bits ← curU32LE
    return .float (ops.floatOfFloat bits)
  | .double => do
    let bits ← curU64LE
    return .double (pscalBoxDouble bits)
  | .longDouble => do
    let bits ← curU64LE
    return .longDouble (ops.ldOfDouble bits)
  | .char => do
    let c ← curU32LE
    return .scalar (Scalar.ofInt .char c.toNat)
  | .widechar => do
    let cp ← curU32LE
    if ← hasError then fail
    return .scalar (Scalar.ofInt .widechar cp.toNat)
  | .thread => readInt .thread
  | .task => return .handle .task false
  | .channel => return .handle .channel false
  | .void => return .void
  | .string => readString .string
  | .unicodeString => readString .unicodeString
  | .nil => return .nil
  | .enum => readEnum
  | .set => readSet
  | .array => readArray value
  | .map => readMap ops value
  | .memorystream => readMemoryStream
  | .pointer => do
    let obj ← readPointerValue ops levels
    return .pointer obj
  | .unknown | .record | .file | .interface | .closure => fail

/-- `readValue` with the levels of nesting that are left -/
def readValue (ops : CodecOps σ κ) : Nat → Reader σ (CacheValue κ)
  | 0 => do
    overrun
    fail
  | levels + 1 => do
    let code ← curU32LE
    if ← hasError then fail
    match VarType.ofCode code with
    | none => fail
    | some type => readPayload ops levels (readValue ops levels) type

def cacheMaxNesting : Nat := 1000

end

end Pscal
