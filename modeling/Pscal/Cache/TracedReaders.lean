import Pscal.Cache.Container
import Pscal.Lib.Cursor

/-!
# The readers of the cache, with what they do

`core/cache.c`: the cursor, the readers of values, trees and sections, the header parser and the
section finder, on the bytes of a file.  Each read, each count from the file that something is
allocated or looped for, and each level of nesting is logged.

* `CountKind`, `CountKind.cap`  the counts, and the number that the code compares each with;
* `CountKind.Unchecked`  those that are compared neither with a number nor with what is left;
* `curU8` … `psb3ReadChunk`  the readers;
* `loadBytecode`  a whole load.
-/

namespace Pscal.Trace

open Wire Wire.Traced

/-! ## counts -/

inductive CountKind where
  | sectionEntry | code | cacheSlot | line | run | text | child | dimension | element | setValue
  | entry | constant | index | indexPair | procedure | upvalue | constGlobal | typeEntry
deriving DecidableEq, Repr

/-- The number that a count is compared with.  The count of the upvalues is a byte, and there is
room for as many as a byte can count. -/
def CountKind.cap : CountKind → Option Nat
  | .sectionEntry => some psb3MaxSections
  | .code | .line | .run => some psb3MaxCodeBytes
  | .cacheSlot => some psb3MaxCacheCount
  | .constant | .index | .procedure => some (2 ^ 31 - 1)
  | .upvalue => some 255
  | _ => none

/-- A text is compared with the size of the section, the others only with `0`, if at all. -/
def CountKind.Unchecked (kind : CountKind) : Prop :=
  kind ∈ [CountKind.text, .dimension, .setValue, .entry, .indexPair, .constGlobal, .typeEntry]

instance (kind : CountKind) : Decidable kind.Unchecked := inferInstanceAs (Decidable (_ ∈ _))

/-- a count that is no more than what is left or than the number for its kind -/
def CountKind.Checked (kind : CountKind) (n left : Nat) : Prop :=
  n ≤ left ∨ ∃ cap ∈ kind.cap, n ≤ cap

abbrev CacheReader (σ α : Type) := Traced CountKind σ α

/-! ## the cursor -/

section
variable {σ : Type}

def curU8 : CacheReader σ UInt8 := do
  let n ← number 1
  return UInt8.ofNat n

def curU16LE : CacheReader σ UInt16 := do
  let n ← number 2
  return UInt16.ofNat n

def curU32LE : CacheReader σ UInt32 := do
  let n ← number 4
  return UInt32.ofNat n

def curU64LE : CacheReader σ UInt64 := do
  let n ← number 8
  return UInt64.ofNat n

def curI32LE : CacheReader σ Int32 := do
  let n ← curU32LE
  return n.toInt32

def curVarint : CacheReader σ UInt64 := do
  let n ← groups 11 0 0
  return UInt64.ofNat n

def curSVarint : CacheReader σ Int64 := do
  let zigzag ← curVarint
  return (zigzag >>> 1).toInt64 ^^^ -(zigzag &&& 1).toInt64

def curLenPrefixedString : CacheReader σ (Option Bytes) := do
  let len ← curVarint
  if (← hasError) ∨ (← size) < len.toNat then
    overrun
    return none
  allot .text len.toNat
  bytes len.toNat

/-! ## trees -/

def readToken : CacheReader σ (Option CacheToken) := do
  let has ← curU8
  if (← hasError) ∨ has = 0 then
    return none
  let type ← curU32LE
  let buf ← curLenPrefixedString
  if (← hasError) ∨ buf = none then
    return none
  return some { type := type, value := buf }

def readAstNested (ast : CacheReader σ TypeAst) : CacheReader σ TypeAst := do
  let has ← curU8
  if (← hasError) ∨ has = 0 then
    return .null
  let type ← curU32LE
  let varType ← curU32LE
  let flags ← curU8
  let token ← readToken
  if ← hasError then
    return .null
  let iVal ← curI32LE
  if ← hasError then
    return .null
  let left ← ast
  let right ← ast
  let extra ← ast
  if ← hasError then
    return .null
  let childCount ← curI32LE
  if (← hasError) ∨ childCount.toInt < 0 then
    return .null
  if (← remaining) < childCount.toInt.toNat then
    return .null
  allot .child childCount.toInt.toNat
  let children ← times ast childCount.toInt.toNat
  if ← hasError then
    return .null
  return .node type varType (flags &&& 0x01 != 0) (flags &&& 0x02 != 0) (flags &&& 0x04 != 0)
    (flags &&& 0x08 != 0) token iVal left right extra children

def readAst : Nat → CacheReader σ TypeAst
  | 0 => stuck
  | fuel + 1 => nested cacheMaxNesting (return .null) (readAstNested (readAst fuel))

/-! ## values -/

variable {κ : Type}

def readPointerValue (ast : CacheReader σ TypeAst) (function : CacheReader σ κ) :
    CacheReader σ (Option (PointerObj κ)) := do
  let kind ← curU8
  if ← hasError then fail
  if kind = 0 then
    return none
  else if kind = 2 then
    let text ← curLenPrefixedString
    if (← hasError) ∨ text = none then fail
    return some (.charPtr .serializedCharPtr (text.map CString.ofBuffer))
  else if kind = 3 then
    let address ← curU64LE
    if ← hasError then fail
    return some (.marked .opaquePointer address)
  else if kind = 4 then
    let base ← ast
    if ← hasError then fail
    return some (.typed base 0)
  else if kind = 1 then
    let fn ← function
    return some (.function (some fn))
  else
    fail

def readInt (t : IntType) : CacheReader σ (CacheValue κ) := do
  let n ← curU64LE
  return .scalar (Scalar.ofInt t n.toInt64.toInt)

def readString (t : StringType) : CacheReader σ (CacheValue κ) := do
  let present ← curU8
  if ← hasError then fail
  if present = 0 then
    return .str t (some { buffer := none })
  let buffer ← curLenPrefixedString
  if (← hasError) ∨ buffer = none then fail
  return .str t (some { buffer := buffer.map CString.ofBuffer })

def readEnum : CacheReader σ (CacheValue κ) := do
  let name ← curLenPrefixedString
  if ← hasError then fail
  let name := name.getD []
  let ordinal ← curI32LE
  if ← hasError then fail
  let enumName := if name.length = 0 then none else some (CString.ofBuffer name)
  return .enum (some { enumName := enumName, ordinal := ordinal })

def readSet : CacheReader σ (CacheValue κ) := do
  let sz ← curI32LE
  if (← hasError) ∨ sz.toInt < 0 then fail
  allot .setValue sz.toInt.toNat
  let values ← times curU64LE sz.toInt.toNat
  if ← hasError then fail
  return .set (some (values.map UInt64.toInt64))

def readBound : CacheReader σ (Int32 × Int32) := do
  let lb ← curI32LE
  let ub ← curI32LE
  return (lb, ub)

def readArray (value : CacheReader σ (CacheValue κ)) : CacheReader σ (CacheValue κ) := do
  let dims ← curI32LE
  if (← hasError) ∨ dims.toInt < 0 then fail
  let elementType ← curU32LE
  if ← hasError then fail
  allot .dimension dims.toInt.toNat
  let bounds ← times readBound dims.toInt.toNat
  if ← hasError then fail
  match arrayCodecElementCount bounds with
  | none => fail
  | some total =>
    if (← remaining) / 4 < total then fail
    allot .element total
    let elements ← times value total
    if isPackedByteElementType elementType then
      let raw := elements.map fun v => UInt8.ofInt v.asInteger
      return .packedArray elementType false bounds (if total = 0 then none else some raw)
    else
      return .array elementType false bounds elements

def readEntries (ops : CodecOps σ κ) (valueType : UInt32) (value : CacheReader σ (CacheValue κ)) :
    Nat → List (Bytes × CacheValue κ) → CacheReader σ (List (Bytes × CacheValue κ))
  | 0, m => return m
  | n + 1, m => do
    let key ← curLenPrefixedString
    if (← hasError) ∨ key = none then fail
    let item ← value
    readEntries ops valueType value n
      (OrderedMap.set m (key.getD []) (mapCoerceStored ops valueType item))

def readMap (ops : CodecOps σ κ) (value : CacheReader σ (CacheValue κ)) :
    CacheReader σ (CacheValue κ) := do
  let present ← curU8
  if ← hasError then fail
  if present = 0 then
    return .nullMap
  let valueType ← curU8
  let count ← curU32LE
  if ← hasError then fail
  allot .entry count.toNat
  let entries ← readEntries ops valueType.toUInt32 value count.toNat []
  return .map valueType.toUInt32 entries

def readMemoryStream : CacheReader σ (CacheValue κ) := do
  let present ← curU8
  if ← hasError then fail
  if present = 0 then
    return .mstream none
  let contents ← curLenPrefixedString
  if (← hasError) ∨ contents = none then fail
  return .mstream contents

/-- the switch of `readValueNested`; of `ops` only the conversions of numbers are used -/
def readPayload (ops : CodecOps σ κ) (ast : CacheReader σ TypeAst) (function : CacheReader σ κ)
    (value : CacheReader σ (CacheValue κ)) : VarType → CacheReader σ (CacheValue κ)
  | .int32 => readInt .int32
  | .word => readInt .word
  | .byte => readInt .byte
  | .boolean => readInt .boolean
  | .int8 => readInt .int8
  | .int16 => readInt .int16
  | .int64 => readInt .int64
  | .uint8 => readInt .uint8
  | .uint16 => readInt .uint16
  | .uint32 => readInt .uint32
  | .uint64 => readInt .uint64
  | .float => do
    let bits ← curU32LE
    return .float (ops.floatOfFloat bits)
  | .double => do
    let bits ← curU64LE
    return .double (pscalBoxDouble bits)
  | .longDouble => do
    let bits ← curU64LE
    return .longDouble (ops.ldOfDouble bits)
  | .char => do
    let c ← curU32LE
    return .scalar (Scalar.ofInt .char c.toNat)
  | .widechar => do
    let cp ← curU32LE
    if ← hasError then fail
    return .scalar (Scalar.ofInt .widechar cp.toNat)
  | .thread => readInt .thread
  | .task => return .handle .task false
  | .channel => return .handle .channel false
  | .void => return .void
  | .string => readString .string
  | .unicodeString => readString .unicodeString
  | .nil => return .nil
  | .enum => readEnum
  | .set => readSet
  | .array => readArray value
  | .map => readMap ops value
  | .memorystream => readMemoryStream
  | .pointer => do
    let obj ← readPointerValue ast function
    return .pointer obj
  | .unknown | .record | .file | .interface | .closure => fail

def readValueNested (ops : CodecOps σ κ) (ast : CacheReader σ TypeAst) (function : CacheReader σ κ)
    (value : CacheReader σ (CacheValue κ)) : CacheReader σ (CacheValue κ) := do
  let code ← curU32LE
  if ← hasError then fail
  match VarType.ofCode code with
  | none => fail
  | some type => readPayload ops ast function value type

/-! ## sections -/

def readCodeSection : CacheReader σ (Bytes × Int32) := do
  let count ← curVarint
  if (← hasError) ∨ psb3MaxCodeBytes < count.toNat then fail
  let cacheCount ← curVarint
  if (← hasError) ∨ psb3MaxCacheCount < cacheCount.toNat then fail
  allot .cacheSlot cacheCount.toNat
  allot .code count.toNat
  let code ← bytes count.toNat
  match code with
  | none => fail
  | some code => return (code, Int32.ofNat cacheCount.toNat)

/-- The loop over the runs, the first of which starts at `0`.  The lines before `curPc` are
filled. -/
def readRuns (count : Nat) :
    Nat → Bool → Nat → Int32 → List Int32 → CacheReader σ (List Int32)
  | 0, _, curPc, curLine, lines => return lines ++ List.replicate (count - curPc) curLine
  | runs + 1, first, curPc, curLine, lines => do
    let pcDelta ← curVarint
    let lineDelta ← curSVarint
    if ← hasError then fail
    let newPc := curPc + pcDelta.toUInt32.toInt32.toInt
    if newPc < curPc ∨ (count : Int) < newPc then fail
    if first ∧ newPc ≠ 0 then fail
    let lines := if first then lines else lines ++ List.replicate (newPc.toNat - curPc) curLine
    readRuns count runs false newPc.toNat (curLine.toInt64 + lineDelta).toInt32 lines

def readLinesSection (count : Nat) : CacheReader σ (List Int32) := do
  let runCount ← curVarint
  if (← hasError) ∨ count < runCount.toNat then
    if count = 0 ∧ runCount = 0 then return [] else fail
  else if count = 0 then
    return []
  else
    allot .line count
    allot .run runCount.toNat
    readRuns count runCount.toNat true 0 0 []

def readConstSection (value : CacheReader σ (CacheValue κ)) :
    CacheReader σ (List (CacheValue κ)) := do
  let constCount ← curVarint
  if (← hasError) ∨ 2 ^ 31 - 1 < constCount.toNat then fail
  allot .constant constCount.toNat
  times value constCount.toNat

def readBmapPairs (constantsCount : Nat) : Nat → List Int32 → CacheReader σ (List Int32)
  | 0, indices => return indices
  | n + 1, indices => do
    let origIdx ← curVarint
    let lowerIdx ← curVarint
    if ← hasError then fail
    if constantsCount ≤ origIdx.toNat ∨ constantsCount ≤ lowerIdx.toNat then fail
    readBmapPairs constantsCount n (indices.set origIdx.toNat (Int32.ofNat lowerIdx.toNat))

def readBmapSection (constantsCount : Nat) : CacheReader σ (Option (List Int32)) := do
  allot .index constantsCount
  let count ← curVarint
  if ← hasError then fail
  allot .indexPair count.toNat
  let indices ← readBmapPairs constantsCount count.toNat (List.replicate constantsCount (-1))
  let _ ← curU64LE
  if ← hasError then fail
  return if constantsCount = 0 then none else some indices

def readUpvalue : CacheReader σ UpvalueEntry := do
  let index ← curU8
  let isLocal ← curU8
  let isRef ← curU8
  if ← hasError then fail
  return { index := index, isLocal := isLocal != 0, isRef := isRef != 0 }

def readName : CacheReader σ CString := do
  let name ← curLenPrefixedString
  match name with
  | none => fail
  | some name => do
    if ← hasError then fail
    return CString.ofBuffer name

def readEnclosing (host : CacheHost σ) : CacheReader σ (Option CString) := do
  let has ← curU8
  if ← hasError then fail
  if has = 0 then
    return none
  let name ← readName
  match host.findProcedureScope (← get) name with
  | none => fail
  | some s => do
    set s
    return some name

/-- an iteration of the loop of `loadProceduresFromStream` -/
def readProcedureEntry (host : CacheHost σ) : CacheReader σ ProcEntry := do
  let name ← readName
  let addr ← curI32LE
  let locals ← curU16LE
  let upvals ← curU8
  let type ← curU32LE
  let arity ← curU8
  let closureCaptures ← curU8
  let closureEscapes ← curU8
  let enclosing ← readEnclosing host
  allot .upvalue upvals.toNat
  let upvalues ← times readUpvalue upvals.toNat
  let entry : ProcEntry :=
    { name := name, bytecodeAddress := addr, localsCount := locals, type := type, arity := arity
      closureCaptures := closureCaptures != 0, closureEscapes := closureEscapes != 0
      enclosing := enclosing, upvalues := upvalues }
  set (host.defineRoutine (← get) entry)
  return entry

def readConstGlobal (host : CacheHost σ) (value : CacheReader σ (CacheValue ShellFunction)) :
    CacheReader σ ConstSymbol := do
  let name ← readName
  let type ← curU32LE
  if ← hasError then fail
  let val ← value
  set (host.bindConstGlobal (← get) name type val)
  return { name := name, type := type, value := some val }

def readProcsSection (host : CacheHost σ) (value : CacheReader σ (CacheValue ShellFunction)) :
    CacheReader σ (List ProcEntry × List ConstSymbol) := do
  let procCount ← curVarint
  if (← hasError) ∨ 2 ^ 31 - 1 < procCount.toNat then fail
  allot .procedure procCount.toNat
  let procedures ← times (readProcedureEntry host) procCount.toNat
  let constSymCount ← curVarint
  if ← hasError then fail
  allot .constGlobal constSymCount.toNat
  let constGlobals ← times (readConstGlobal host value) constSymCount.toNat
  return (procedures, constGlobals)

def readTypeEntry (host : CacheHost σ) (ast : CacheReader σ TypeAst) : CacheReader σ TypeEntry := do
  let name ← readName
  let typeAst ← ast
  if (← hasError) ∨ typeAst.isNull then fail
  set (host.insertType (← get) name typeAst)
  return { name := name, typeAst := typeAst }

def readTypesSection (host : CacheHost σ) (ast : CacheReader σ TypeAst) :
    CacheReader σ (List TypeEntry) := do
  let typeCount ← curVarint
  if ← hasError then fail
  allot .typeEntry typeCount.toNat
  times (readTypeEntry host ast) typeCount.toNat

def readChunkCoreInline (host : CacheHost σ) (ast : CacheReader σ TypeAst)
    (value : CacheReader σ (CacheValue ShellFunction)) (version : UInt32) :
    CacheReader σ (CachedChunk ShellFunction) := do
  let (code, cacheCount) ← readCodeSection
  let lines ← readLinesSection code.length
  let constants ← readConstSection value
  let indices ← readBmapSection constants.length
  let _ ← readProcsSection host value
  let _ ← readTypesSection host ast
  return { version := version, frontendKind := host.frontendGetKind, code := code
           cacheCount := cacheCount, lines := lines, constants := constants
           builtinLowercaseIndices := indices }

/-- the case of `readPointerValue` for a shell function, after its kind -/
def readShellFunction (host : CacheHost σ) (ast : CacheReader σ TypeAst)
    (value : CacheReader σ (CacheValue ShellFunction)) : CacheReader σ ShellFunction := do
  let version ← curU32LE
  if ← hasError then fail
  let chunk ← readChunkCoreInline host ast value version
  match host.linkAndVerify chunk with
  | none => fail
  | some chunk => return .mk chunk

def readValue (host : CacheHost σ) : Nat → CacheReader σ (CacheValue ShellFunction)
  | 0 => stuck
  | fuel + 1 =>
    nested cacheMaxNesting fail
      (readValueNested (functionOps host {} 0) (readAst fuel)
        (readShellFunction host (readAst fuel) (readValue host fuel)) (readValue host fuel))

end

/-! ## the header -/

def readHeader : CacheReader Unit (UInt32 × UInt16 × UInt16 × UInt32 × UInt32) := do
  let magic ← curU32LE
  let formatVer ← curU16LE
  let vmVer ← curU16LE
  let flags ← curU32LE
  let sectionCount ← curU32LE
  return (magic, formatVer, vmVer, flags, sectionCount)

def readSectionEntry : CacheReader Unit Psb3SectionEntry := do
  let id ← curU32LE
  let offset ← curU32LE
  let length ← curU32LE
  return { id := id, offset := offset, length := length }

def readDirectory (sectionCount : Nat) : CacheReader Unit (List Psb3SectionEntry) := do
  allot .sectionEntry sectionCount
  times readSectionEntry sectionCount

abbrev CacheEvent := Event CountKind

/-- the directory, after the header -/
def psb3ParseDirectory (pf : Psb3File) (sectionCount : Nat) (c : Cursor) :
    Except String Psb3File × List CacheEvent :=
  let r := readDirectory sectionCount pf.fileData c ()
  match r.outcome, r.cursor.error with
  | .done sections, false =>
    ((do
      psb3CheckSections pf.fileData.length sections
      return { pf with sections := sections }), r.events)
  | _, _ => (.error "truncated section directory", r.events)

def psb3ParseHeader (fileData : Bytes) : Except String Psb3File × List CacheEvent :=
  let r := readHeader fileData { base := 0, size := fileData.length } ()
  match r.outcome, r.cursor.error with
  | .done (magic, formatVer, vmVer, flags, sectionCount), false =>
    if magic ≠ psb3Magic then (.error "not a PSB3 bytecode file", r.events)
    else if formatVer ≠ psb3FormatVersion then
      (.error s!"container format {formatVer}, this build reads format {psb3FormatVersion}",
        r.events)
    else if psb3MaxSections < sectionCount.toNat then
      (.error s!"implausible section count {sectionCount}", r.events)
    else
      let code := flags &&& psb3FlagFrontendMask
      match FrontendKind.ofCode code with
      | none => (.error s!"unknown frontend kind {code} in header", r.events)
      | some kind =>
        let (pf, events) := psb3ParseDirectory
          { fileData := fileData, formatVersion := formatVer, vmVersion := vmVer, flags := flags
            frontendKind := kind, sections := [] } sectionCount.toNat r.cursor
        (pf, r.events ++ events)
  | _, _ => (.error s!"truncated header ({fileData.length} bytes)", r.events)

/-! ## a load -/

section
variable {σ α : Type}

/-- a reader with a cursor of its own, which `psb3FindSection` sets on the section -/
def inSection (pf : Psb3File) (id : UInt32) (m : CacheReader σ α) : CacheReader σ α :=
  match pf.sections.find? fun e => e.id = id with
  | none => fail
  | some e => inPart e.offset.toNat e.length.toNat m

def psb3ReadChunk (host : CacheHost σ) (pf : Psb3File) :
    CacheReader σ (CachedChunk ShellFunction × SymbolTables) := do
  let fuel := cacheMaxNesting + 1
  let required := [psb3SecCode, psb3SecLine, psb3SecCons, psb3SecBmap, psb3SecProc, psb3SecType]
  if required.any fun id => (psb3FindSection pf id).isNone then fail
  let (code, cacheCount) ← inSection pf psb3SecCode readCodeSection
  let lines ← inSection pf psb3SecLine (readLinesSection code.length)
  let constants ← inSection pf psb3SecCons (readConstSection (readValue host fuel))
  let indices ← inSection pf psb3SecBmap (readBmapSection constants.length)
  let (procedures, constGlobals) ← inSection pf psb3SecProc
    (readProcsSection host (readValue host fuel))
  let types ← inSection pf psb3SecType (readTypesSection host (readAst fuel))
  return ({ version := pf.vmVersion.toUInt32, frontendKind := pf.frontendKind, code := code
            cacheCount := cacheCount, lines := lines, constants := constants
            builtinLowercaseIndices := indices },
    { procedures := procedures, constGlobals := constGlobals, types := types })

def readMetaSection : CacheReader σ MetaSection := do
  let sourceHash ← curU64LE
  let combinedHash ← curU64LE
  let sourcePath ← readName
  return { sourceHash := sourceHash, combinedHash := combinedHash, sourcePath := sourcePath }

def psb3ReadMeta (pf : Psb3File) : CacheReader σ MetaSection :=
  inSection pf psb3SecMeta readMetaSection

/-- the chunk, after the data of the source where they are read -/
def psb3Read (host : CacheHost σ) (includeMeta : Bool) (pf : Psb3File) :
    CacheReader σ (CachedChunk ShellFunction × SymbolTables) := do
  if includeMeta then
    let _ ← psb3ReadMeta pf
    psb3ReadChunk host pf
  else
    psb3ReadChunk host pf

/-- `loadBytecodeFromCache`, which reads the data of the source, and `loadBytecodeFromFile` -/
def loadBytecode (host : CacheHost σ) (includeMeta : Bool) (fileData : Bytes) (s : σ) :
    Run CountKind σ (CachedChunk ShellFunction × SymbolTables) :=
  match psb3ParseHeader fileData with
  | (.error _, events) =>
    { outcome := .failed, cursor := { base := 0, size := 0 }, state := s, events := events }
  | (.ok pf, events) =>
    let r := psb3Read host includeMeta pf fileData { base := 0, size := 0 } s
    { r with events := events ++ r.events }

end

end Pscal.Trace
