import Pscal.Cache.Values
import Pscal.Core.Reals

/-!
# Element reads

`vm/vm.c`: how an element of an array or a character of a string is read, at once by
`LOAD_ELEMENT_VALUE`, or by its address, with `GET_ELEMENT_ADDRESS` and `GET_INDIRECT`; and the
forms with a constant offset.

* `Operand`, `Target`  the base, by its address or on the stack, and what is there;
* `vmIndexValueToInt`, `vmResolveStringIndex`  the indices;
* `resolveArray`  the array that an operand leads to;
* `loadElementValue`, `loadElementValueConst`  the read at once;
* `getElementAddress`, `getElementAddressConst`, `getIndirect`  the read by an address.

An address is made of a payload that `valueEnsureUnique` has cloned where it was shared; the clone
has the same contents.
-/

namespace Pscal

namespace Elements

open Wire

/-! ## bases -/

/-- `array_raw` (`none`: null) or `array_val` -/
inductive ArrayBuffer (V : Type) where
  | raw (bytes : Option Bytes)
  | elements (elements : List V)
deriving DecidableEq, Repr

structure ArrayObj (V : Type) where
  isDynamic : Bool
  bounds : List (Int × Int)
  elementType : VarType
  buffer : ArrayBuffer V
deriving DecidableEq, Repr

inductive Target (V : Type) where
  | str (t : StringType) (buffer : Option CString)
  | array (a : ArrayObj V)
  /-- what `dispose` leaves -/
  | disposed
  | other
deriving DecidableEq, Repr

/-- `base_type_node` of a pointer -/
inductive PointerBase (V : Type) where
  /-- of a character, a byte, a length or an opaque address -/
  | notValue
  /-- an array type, as which the memory at the address is read (`none`: its bounds are invalid) -/
  | arrayType (wrapper : Option (ArrayObj V))
  | other
deriving DecidableEq, Repr

inductive Operand (V : Type) where
  | pointer (base : PointerBase V) (target : Option (Target V))
  | array (a : ArrayObj V)
  | other
deriving DecidableEq, Repr

/-- the bytes before the terminator, none of a null buffer -/
def textOf (buffer : Option CString) : Bytes := buffer.elim [] CString.bytes

inductive ElementError where
  | notValueAddress
  | stringIndexType
  | stringIndex (index : Int) (length : Nat)
  | arrayIndexRange (ordinal : Int)
  | realIndexRange
  | arrayIndexType
  | dangling
  | nilPointer
  | subrange
  | notArrayPointer
  | needsPointer
  | notArray
  | indexCount (count dimensions : Nat)
  | outOfBounds
  | dimensionBounds (index lower upper : Int) (dimension : Nat)
  | packedStorage
  /-- not in the source: a read past the buffer -/
  | pastBuffer
  | danglingTarget
  | shortenedString
deriving DecidableEq, Repr

/-! ## indices -/

inductive IndexValue (F : Reals) where
  | scalar (s : Scalar)
  | enum (ordinal : Int)
  | real (x : F.LongDouble)
  | other

section
variable {F : Reals}

/-- `VAL_INT` of a value of a type that `isIntlikeType` accepts -/
def IndexValue.valInt : IndexValue F → Option Int
  | .scalar s => some (s.value.bmod (2 ^ 64))
  | _ => none

def tryValueToOrdinal : IndexValue F → Option Int
  | .scalar s =>
    match s.type with
    | .thread => none
    | .char => some (s.value % 2 ^ 8)
    | .widechar => some (s.value.bmod (2 ^ 32))
    | _ => some (s.value.bmod (2 ^ 64))
  | .enum ordinal => some ordinal
  | _ => none

def vmIndexValueToInt (v : IndexValue F) : Except ElementError Int :=
  match tryValueToOrdinal v with
  | some ordinal =>
    if ordinal < -2 ^ 31 ∨ 2 ^ 31 - 1 < ordinal then .error (.arrayIndexRange ordinal)
    else .ok ordinal
  | none =>
    match v with
    | .real x =>
      if F.lt x (F.ofInt (-2 ^ 31)) ∨ F.lt (F.ofInt (2 ^ 31 - 1)) x then .error .realIndexRange
      else .ok (F.trunc x)
    | _ => .error .arrayIndexType

def popIndices (indices : List (IndexValue F)) : Except ElementError (List Int) :=
  (indices.reverse.mapM vmIndexValueToInt).map List.reverse

end

/-- the offset of a character, or the length that is asked for -/
inductive StringIndex where
  | offset (n : Nat)
  | length
deriving DecidableEq, Repr

/-- `zeroBased` is `frontendIsZeroBasedStrings()`, which `vm->zeroBasedIndexing` holds; both opcodes
allow the query for the length. -/
def vmResolveStringIndex (zeroBased : Bool) (rawIndex : Int) (len : Nat) :
    Except ElementError StringIndex :=
  if zeroBased = false then
    if rawIndex = 0 then .ok .length
    else if rawIndex < 1 ∨ (len : Int) < rawIndex then .error (.stringIndex rawIndex len)
    else .ok (.offset (rawIndex - 1).toNat)
  else if rawIndex < 0 ∨ (len : Int) ≤ rawIndex then .error (.stringIndex rawIndex len)
  else .ok (.offset rawIndex.toNat)

def vmDisplayIndexFromOffset (zeroBased : Bool) (offset : Nat) : Nat :=
  if zeroBased then offset else offset + 1

/-! ## arrays -/

section
variable {V : Type}

def span (b : Int × Int) : Int := b.2 - b.1 + 1

def inDimension (b : Int × Int) (index : Int) : Bool := b.1 ≤ index ∧ index ≤ b.2

def calculateArrayTotalSize (a : ArrayObj V) : Int :=
  if a.bounds = [] then 0 else (a.bounds.map span).prod

/-- from the last dimension to the first, with the offset and the multiplier so far -/
def computeFlatOffset (bounds : List (Int × Int)) (indices : List Int) : Int :=
  ((bounds.zip indices).foldr
    (fun p acc => (acc.1 + (p.2 - p.1.1) * acc.2, acc.2 * span p.1)) (0, 1)).1

/-- the last dimension whose index is out of bounds is reported -/
def vmCheckArrayIndexBounds (a : ArrayObj V) (indices : List Int) : Except ElementError Unit :=
  match (a.bounds.zip indices).zipIdx.reverse.find? fun p => !inDimension p.1.1 p.1.2 with
  | some ((b, index), i) => .error (.dimensionBounds index b.1 b.2 (i + 1))
  | none => .ok ()

inductive Slice (V : Type) where
  | slot (v : V)
  | view (a : ArrayObj V)
deriving DecidableEq, Repr

def ArrayBuffer.drop (buffer : ArrayBuffer V) (offset : Nat) : ArrayBuffer V :=
  match buffer with
  | .raw bytes => .raw (bytes.map fun bs => bs.drop offset)
  | .elements es => .elements (es.drop offset)

/-- An array of arrays has its rows as elements; other arrays of several dimensions are flat. -/
def makeDynamicArraySliceValue (a : ArrayObj V) (indices : List Int) :
    Except ElementError (Slice V) :=
  if indices = [] ∨ a.bounds.length ≤ indices.length then .error .outOfBounds
  else if a.elementType = .array then
    match a.bounds, indices, a.buffer with
    | b :: _, [index], .elements es =>
      if inDimension b index then
        match es[(index - b.1).toNat]? with
        | some v => .ok (.slot v)
        | none => .error .pastBuffer
      else .error .outOfBounds
    | _, _, _ => .error .outOfBounds
  else if (a.bounds.zip indices).all fun p => inDimension p.1 p.2 then
    let inner := ((a.bounds.drop indices.length).map span).prod
    let offset := computeFlatOffset a.bounds indices * inner
    .ok (.view
      { a with
        bounds := a.bounds.drop indices.length
        buffer := a.buffer.drop offset.toNat })
  else .error .outOfBounds

/-- The array of an operand; `needsPointer`: an array on the stack is refused. -/
def resolveArray (needsPointer : Bool) : Operand V → Except ElementError (ArrayObj V)
  | .pointer base target =>
    match target with
    | none => .error .nilPointer
    | some .disposed => .error .dangling
    | some (.array a) => .ok a
    | _ =>
      match base with
      | .arrayType (some wrapper) => .ok wrapper
      | .arrayType none => .error .subrange
      | _ => .error .notArrayPointer
  | .array a => if needsPointer then .error .needsPointer else .ok a
  | .other => .error .notArray

/-- the offset of the element, once there is an index for each dimension -/
def elementOffset (a : ArrayObj V) (indices : List Int) : Except ElementError Nat := do
  vmCheckArrayIndexBounds a indices
  let offset := computeFlatOffset a.bounds indices
  if offset < 0 ∨ calculateArrayTotalSize a ≤ offset then .error .outOfBounds
  else return offset.toNat

def constOffset (a : ArrayObj V) (flatOffset : UInt32) : Except ElementError Nat :=
  if calculateArrayTotalSize a % 2 ^ 32 ≤ flatOffset.toNat then .error .outOfBounds
  else return flatOffset.toNat

/-! ## reading at once -/

inductive ElementValue (V : Type) where
  | char (ch : UInt8)
  | wideChar (codepoint : Nat)
  | int (n : Nat)
  | byte (b : UInt8)
  | copy (v : V)
  | view (a : ArrayObj V)
deriving DecidableEq, Repr

def Slice.value : Slice V → ElementValue V
  | .slot v => .copy v
  | .view a => .view a

def loadFrom (buffer : ArrayBuffer V) (offset : Nat) : Except ElementError (ElementValue V) :=
  match buffer with
  | .raw none => .error .packedStorage
  | .raw (some bytes) => (bytes[offset]?).elim (.error .pastBuffer) fun b => .ok (.byte b)
  | .elements es => (es[offset]?).elim (.error .pastBuffer) fun v => .ok (.copy v)

def loadChar (text : Bytes) (offset : Nat) : ElementValue V := .char (text.getD offset 0)

section
variable {F : Reals} (zeroBased : Bool)

/-- of a string of either type -/
def loadStringElement (buffer : Option CString) (index : IndexValue F) :
    Except ElementError (ElementValue V) :=
  match index.valInt with
  | none => .error .stringIndexType
  | some rawIndex => do
    let len := (textOf buffer).length
    match ← vmResolveStringIndex zeroBased rawIndex len with
    | .length => return .int len
    | .offset n => return loadChar (textOf buffer) n

def loadSelected (a : ArrayObj V) (indices : List Int) : Except ElementError (ElementValue V) :=
  if indices.length < a.bounds.length % 2 ^ 8 then do
    let slice ← makeDynamicArraySliceValue a indices
    return slice.value
  else do
    let offset ← elementOffset a indices
    loadFrom a.buffer offset

def loadArrayElement (operand : Operand V) (indices : List (IndexValue F)) :
    Except ElementError (ElementValue V) := do
  let indices ← popIndices indices
  let a ← resolveArray false operand
  loadSelected a indices

def loadElementValue (operand : Operand V) (indices : List (IndexValue F)) :
    Except ElementError (ElementValue V) :=
  match operand, indices with
  | .pointer .notValue _, _ => .error .notValueAddress
  | .pointer _ (some (.str _ buffer)), [index] => loadStringElement zeroBased buffer index
  | _, _ => loadArrayElement operand indices

def loadElementValueConst (operand : Operand V) (flatOffset : UInt32) :
    Except ElementError (ElementValue V) :=
  match operand with
  | .pointer .notValue _ => .error .notValueAddress
  | .pointer _ (some (.str _ buffer)) =>
    let len := (textOf buffer).length
    if len ≤ flatOffset.toNat then
      .error (.stringIndex (vmDisplayIndexFromOffset zeroBased flatOffset.toNat) len)
    else .ok (loadChar (textOf buffer) flatOffset.toNat)
  | _ => do
    let a ← resolveArray false operand
    let offset ← constOffset a flatOffset
    loadFrom a.buffer offset

/-! ## reading by an address -/

inductive Address (V : Type) where
  /-- a pinned character: `string_index`, by code point or by byte -/
  | stringChar (byCodepoint : Bool) (index : Nat) (text : Bytes)
  | stringLength (t : StringType) (text : Bytes)
  | byte (bytes : Bytes) (offset : Nat)
  | element (elements : List V) (offset : Nat)
  | slice (s : Slice V)
deriving DecidableEq, Repr

def stringLength (t : StringType) (text : Bytes) : Nat :=
  match t with
  | .unicodeString => utf8CodepointCount text
  | .string => text.length

def vmPushStringCharAddress (t : StringType) (text : Bytes) (rawIndex : Int) :
    Except ElementError (Address V) := do
  match ← vmResolveStringIndex zeroBased rawIndex (stringLength t text) with
  | .length => return .stringLength t text
  | .offset n => return .stringChar (t = .unicodeString) n text

def stringElementAddress (t : StringType) (buffer : Option CString) (index : IndexValue F) :
    Except ElementError (Address V) :=
  match index.valInt with
  | none => .error .stringIndexType
  | some rawIndex => vmPushStringCharAddress zeroBased t (textOf buffer) rawIndex

def elementAddress (buffer : ArrayBuffer V) (offset : Nat) : Except ElementError (Address V) :=
  match buffer with
  | .raw none => .error .packedStorage
  | .raw (some bytes) => .ok (.byte bytes offset)
  | .elements es => .ok (.element es offset)

def selectedAddress (a : ArrayObj V) (indices : List Int) : Except ElementError (Address V) :=
  if 0 < a.bounds.length ∧ a.bounds.length < indices.length then
    .error (.indexCount indices.length a.bounds.length)
  else if indices.length < a.bounds.length % 2 ^ 8 then do
    let slice ← makeDynamicArraySliceValue a indices
    return .slice slice
  else do
    let offset ← elementOffset a indices
    elementAddress a.buffer offset

def getArrayElementAddress (operand : Operand V) (indices : List (IndexValue F)) :
    Except ElementError (Address V) := do
  let indices ← popIndices indices
  let a ← resolveArray true operand
  selectedAddress a indices

def getElementAddress (operand : Operand V) (indices : List (IndexValue F)) :
    Except ElementError (Address V) :=
  match operand, indices with
  | .pointer .notValue _, _ => .error .notValueAddress
  | .pointer _ (some (.str t buffer)), [index] => stringElementAddress zeroBased t buffer index
  | _, _ => getArrayElementAddress operand indices

def getElementAddressConst (operand : Operand V) (flatOffset : UInt32) :
    Except ElementError (Address V) :=
  match operand with
  | .pointer .notValue _ => .error .notValueAddress
  | .pointer _ (some (.str t buffer)) =>
    let len := stringLength t (textOf buffer)
    if len ≤ flatOffset.toNat then
      .error (.stringIndex (vmDisplayIndexFromOffset zeroBased flatOffset.toNat) len)
    else .ok (.stringChar (t = .unicodeString) flatOffset.toNat (textOf buffer))
  | _ => do
    let a ← resolveArray false operand
    let offset ← constOffset a flatOffset
    elementAddress a.buffer offset

end

/-- the loop of `utf8ByteOffsetForCodepointIndex` for so many more code points -/
def utf8ByteOffsetLoop (text : Bytes) (index : Nat) : Nat → Nat → Nat
  | 0, offset => offset
  | n + 1, offset =>
    if text.length ≤ offset then offset
    else
      match decodeUtf8Codepoint (text.drop offset) with
      | none => min index text.length
      | some (_, advance) => utf8ByteOffsetLoop text index n (offset + advance)

def utf8ByteOffsetForCodepointIndex (text : Bytes) (index : Nat) : Nat :=
  utf8ByteOffsetLoop text index index 0

/-- the offset and the length in bytes of a character -/
def vmUnicodeCharSpan (text : Bytes) (index : Nat) : Option (Nat × Nat) :=
  if utf8CodepointCount text = text.length then
    if text.length ≤ index then none else some (index, 1)
  else
    let offset := utf8ByteOffsetForCodepointIndex text index
    if text.length ≤ offset then none
    else some (offset, (decodeUtf8Codepoint (text.drop offset)).elim 1 Prod.snd)

def vmLoadUnicodeChar (text : Bytes) (index : Nat) : Except ElementError (ElementValue V) :=
  match vmUnicodeCharSpan text index with
  | none => .error .shortenedString
  | some (offset, len) =>
    match decodeUtf8Codepoint ((text.drop offset).take len) with
    | some (codepoint, _) => .ok (.wideChar codepoint)
    | none => .ok (.wideChar (text.getD offset 0).toNat)

/-- `vmStringCharTarget` of a pinned character: the text is long enough, or was shortened -/
def vmStringCharTarget (text : Bytes) (index : Nat) : Except ElementError (ElementValue V) :=
  if text.length ≤ index then .error .shortenedString else .ok (loadChar text index)

/-- `GET_INDIRECT` at such an address, with `vmValueIsDisposed` for the cell that it leads to -/
def getIndirect (vmValueIsDisposed : V → Bool) : Address V → Except ElementError (ElementValue V)
  | .stringChar true index text => vmLoadUnicodeChar text index
  | .stringChar false index text => vmStringCharTarget text index
  | .stringLength t text => .ok (.int (stringLength t text))
  | .byte bytes offset => loadFrom (.raw (some bytes)) offset
  | .element es offset =>
    match es[offset]? with
    | none => .error .pastBuffer
    | some v => if vmValueIsDisposed v then .error .danglingTarget else .ok (.copy v)
  | .slice (.slot v) => if vmValueIsDisposed v then .error .danglingTarget else .ok (.copy v)
  | .slice (.view a) => .ok (.view a)

end

end Elements

end Pscal
