import Pscal.Cache.Values

/-!
# The sections of a cached chunk

`core/cache.c`: the writers and readers of the sections, one after the other for a shell function
that is embedded in a constant.

* `CachedChunk`, `ShellFunction`  what is stored of a chunk, and of a function in its constants;
* `SymbolTables`, `CacheHost`  the tables the writer reads, and what else the codec takes from the
  process it runs in;
* `writeCodeSection` … `writeTypesSection`, `readCodeSection` … `readTypesSection`  the sections;
* `writeChunkCoreInline`, `readChunkCoreInline`  all of them;
* `functionOps`  the codec of values, with functions so many levels deep.
-/

namespace Pscal

open Wire Wire.Reader

/-! ## hashes -/

def fnv1a64Offset : UInt64 := 1469598103934665603

def fnv1a64Prime : UInt64 := 1099511628211

def fnv1aUpdate (hash : UInt64) (data : Bytes) : UInt64 :=
  data.foldl (fun h b => (h ^^^ b.toUInt64) * fnv1a64Prime) hash

/-! ## signed numbers -/

def bufSVarint (v : Int64) : Bytes := bufVarint ((v <<< 1) ^^^ (v >>> 63)).toUInt64

/-! ## chunks -/

inductive FrontendKind where
  | unknown | pascal | rea | aether | clike | shell
deriving DecidableEq, Repr

/-- What is stored of a `BytecodeChunk`.  There is a line for each byte of code. -/
structure CachedChunk (κ : Type) where
  version : UInt32
  frontendKind : FrontendKind
  code : Bytes
  cacheCount : Int32
  lines : List Int32
  constants : List (CacheValue κ)
  builtinLowercaseIndices : Option (List Int32)

/-- the chunk of a `ShellCompiledFunction` -/
inductive ShellFunction where
  | mk (chunk : CachedChunk ShellFunction)

def ShellFunction.chunk : ShellFunction → CachedChunk ShellFunction
  | .mk chunk => chunk

/-! ## the tables of the process -/

structure UpvalueEntry where
  index : UInt8
  isLocal : Bool
  isRef : Bool
deriving DecidableEq, Repr

structure ProcEntry where
  name : CString
  isDefined : Bool := true
  bytecodeAddress : Int32
  localsCount : UInt16
  type : UInt32
  arity : UInt8
  closureCaptures : Bool
  closureEscapes : Bool
  enclosing : Option CString
  upvalues : List UpvalueEntry
deriving DecidableEq, Repr

structure ConstSymbol where
  name : CString
  type : UInt32
  value : Option (CacheValue ShellFunction)

structure TypeEntry where
  name : CString
  typeAst : TypeAst

/-- The routines as the writer comes by them, the global constants and the types, of the process
that writes. -/
structure SymbolTables where
  procedures : List ProcEntry := []
  constGlobals : List ConstSymbol := []
  types : List TypeEntry := []

/-- What the codec takes from the process it runs in, whose tables are a `σ`.  The section readers
give back what they enter into them. -/
structure CacheHost (σ : Type) where
  doubleOfLd : Nat → UInt64
  ldOfDouble : UInt64 → Nat
  floatOfFloat : UInt32 → UInt32
  doubleOfInt : Int → UInt64
  /-- a `double` keeps its value as a `long double` -/
  narrow_widen : ∀ bits, doubleOfLd (ldOfDouble (doubleOfLd bits)) = doubleOfLd bits
  frontendGetKind : FrontendKind
  /-- `pscalLinkGlobalSlots`, then `pscalVerifyBytecodeChunk` (`none`: one of them refuses) -/
  linkAndVerify : CachedChunk ShellFunction → Option (CachedChunk ShellFunction)
  /-- `none`: there is no routine of the name -/
  findProcedureScope : σ → CString → Option σ
  /-- the entry is the routine of its name, in the scope of its enclosing routine -/
  defineRoutine : σ → ProcEntry → σ
  bindConstGlobal : σ → CString → UInt32 → CacheValue ShellFunction → σ
  insertType : σ → CString → TypeAst → σ

/-! ## the writers -/

section
variable {σ κ : Type}

def writeCodeSection (chunk : CachedChunk κ) : Bytes :=
  bufVarint (UInt64.ofNat chunk.code.length) ++
    bufVarint (UInt64.ofInt chunk.cacheCount.toInt) ++ chunk.code

/-- how many runs of one line there are after the line `before` (`none`: at the start) -/
def runCount : Option Int32 → List Int32 → Nat
  | _, [] => 0
  | before, line :: lines => (if before = some line then 0 else 1) + runCount (some line) lines

/-- the runs from `pc` on, each as its distance from the one before it -/
def writeRuns (prevPc : Nat) (prevLine : Int32) :
    Nat → Option Int32 → List Int32 → Bytes
  | _, _, [] => []
  | pc, before, line :: lines =>
    if before = some line then writeRuns prevPc prevLine (pc + 1) (some line) lines
    else
      bufVarint (UInt64.ofNat (pc - prevPc)) ++
        bufSVarint (line.toInt64 - prevLine.toInt64) ++
        writeRuns pc line (pc + 1) (some line) lines

def writeLinesSection (chunk : CachedChunk κ) : Bytes :=
  bufVarint (UInt64.ofNat (runCount none chunk.lines)) ++ writeRuns 0 0 0 none chunk.lines

def writeConsts (ops : CodecOps σ κ) : List (CacheValue κ) → Option Bytes
  | [] => some []
  | v :: vs => do
    let bs ← writeValue ops v
    let rest ← writeConsts ops vs
    return bs ++ rest

def writeConstSection (ops : CodecOps σ κ) (chunk : CachedChunk κ) : Option Bytes := do
  let values ← writeConsts ops chunk.constants
  return bufVarint (UInt64.ofNat chunk.constants.length) ++ values

/-- the constants with the index of a lowercase copy, from the constant `i` on -/
def bmapPairs (constantsCount : Nat) : Nat → List Int32 → List (Nat × Nat)
  | _, [] => []
  | i, lower :: indices =>
    if 0 ≤ lower.toInt ∧ lower.toInt < constantsCount then
      (i, lower.toInt.toNat) :: bmapPairs constantsCount (i + 1) indices
    else bmapPairs constantsCount (i + 1) indices

/-- the text of a constant of type `STRING` -/
def CacheValue.constText : Option (CacheValue κ) → Bytes
  | some (.str .string obj) => (obj.bind StringObj.buffer).elim [] CString.bytes
  | _ => []

def computeBuiltinFingerprintEntry (lowerName : Bytes) : UInt64 :=
  fnv1aUpdate fnv1a64Offset lowerName

def bmapFingerprint (constants : List (CacheValue κ)) (pairs : List (Nat × Nat)) : UInt64 :=
  pairs.foldl (fun h p =>
    let name := CacheValue.constText constants[p.2]?
    fnv1aUpdate h (bufU64LE (computeBuiltinFingerprintEntry name))) fnv1a64Offset

def writeBmapSection (chunk : CachedChunk κ) : Bytes :=
  let pairs := bmapPairs chunk.constants.length 0 (chunk.builtinLowercaseIndices.getD [])
  bufVarint (UInt64.ofNat pairs.length) ++
    (pairs.flatMap fun p => bufVarint (UInt64.ofNat p.1) ++ bufVarint (UInt64.ofNat p.2)) ++
    bufU64LE (bmapFingerprint chunk.constants pairs)

def bufBool (b : Bool) : Bytes := bufU8 (if b then 1 else 0)

/-- a routine without a compiled body has the address `-1` -/
def ProcEntry.storedAddress (e : ProcEntry) : Int32 := if e.isDefined then e.bytecodeAddress else -1

def writeUpvalue (uv : UpvalueEntry) : Bytes := bufU8 uv.index ++ bufBool uv.isLocal ++ bufBool uv.isRef

def writeEnclosing : Option CString → Bytes
  | none => bufU8 0
  | some name => bufU8 1 ++ bufLenPrefixedBytes name.bytes

def writeProcedureEntry (e : ProcEntry) : Bytes :=
  bufLenPrefixedBytes e.name.bytes ++ bufI32LE e.storedAddress ++ bufU16LE e.localsCount ++
    bufU8 (UInt8.ofNat e.upvalues.length) ++ bufU32LE e.type ++ bufU8 e.arity ++
    bufBool e.closureCaptures ++ bufBool e.closureEscapes ++ writeEnclosing e.enclosing ++
    e.upvalues.flatMap writeUpvalue

def writeConstGlobals (ops : CodecOps σ ShellFunction) : List ConstSymbol → Option Bytes
  | [] => some []
  | sym :: syms => do
    let value ← writeValue ops (sym.value.getD .void)
    let rest ← writeConstGlobals ops syms
    return bufLenPrefixedBytes sym.name.bytes ++ bufU32LE sym.type ++ value ++ rest

def writeProcsSection (ops : CodecOps σ ShellFunction) (tables : SymbolTables) : Option Bytes := do
  let consts ← writeConstGlobals ops tables.constGlobals
  return bufVarint (UInt64.ofNat tables.procedures.length) ++
    tables.procedures.flatMap writeProcedureEntry ++
    bufVarint (UInt64.ofNat tables.constGlobals.length) ++ consts

def writeTypeEntry (e : TypeEntry) : Bytes :=
  bufLenPrefixedBytes e.name.bytes ++ writeAst e.typeAst

def writeTypesSection (tables : SymbolTables) : Bytes :=
  bufVarint (UInt64.ofNat tables.types.length) ++ tables.types.flatMap writeTypeEntry

def writeChunkCoreInline (ops : CodecOps σ ShellFunction) (tables : SymbolTables)
    (chunk : CachedChunk ShellFunction) : Option Bytes := do
  let consts ← writeConstSection ops chunk
  let procs ← writeProcsSection ops tables
  return writeCodeSection chunk ++ writeLinesSection chunk ++ consts ++ writeBmapSection chunk ++
    procs ++ writeTypesSection tables

end

/-! ## the readers -/

section
variable {σ κ : Type}

def curSVarint : Reader σ Int64 := do
  let zigzag ← curVarint
  return (zigzag >>> 1).toInt64 ^^^ -(zigzag &&& 1).toInt64

def psb3MaxCodeBytes : Nat := 64 * 1024 * 1024

def psb3MaxCacheCount : Nat := 0x10000

/-- the code and the cache count -/
def readCodeSection : Reader σ (Bytes × Int32) := do
  let count ← curVarint
  if (← hasError) ∨ psb3MaxCodeBytes < count.toNat then fail
  let cacheCount ← curVarint
  if (← hasError) ∨ psb3MaxCacheCount < cacheCount.toNat then fail
  let code ← bytes count.toNat
  match code with
  | none => fail
  | some code => return (code, Int32.ofNat cacheCount.toNat)

/-- The loop over the runs, the first of which starts at `0`.  The lines before `curPc` are
filled. -/
def readRuns (count : Nat) :
    Nat → Bool → Nat → Int32 → List Int32 → Reader σ (List Int32)
  | 0, _, curPc, curLine, lines => return lines ++ List.replicate (count - curPc) curLine
  | runs + 1, first, curPc, curLine, lines => do
    let pcDelta ← curVarint
    let lineDelta ← curSVarint
    if ← hasError then fail
    let newPc := curPc + pcDelta.toUInt32.toInt32.toInt
    if newPc < curPc ∨ (count : Int) < newPc then fail
    if first ∧ newPc ≠ 0 then fail
    let lines := if first then lines else lines ++ List.replicate (newPc.toNat - curPc) curLine
    readRuns count runs false newPc.toNat (curLine.toInt64 + lineDelta).toInt32 lines

def readLinesSection (count : Nat) : Reader σ (List Int32) := do
  let runCount ← curVarint
  if (← hasError) ∨ count < runCount.toNat then
    if count = 0 ∧ runCount = 0 then return [] else fail
  else if count = 0 then
    return []
  else
    readRuns count runCount.toNat true 0 0 []

def readConstSection (value : Reader σ (CacheValue κ)) : Reader σ (List (CacheValue κ)) := do
  let constCount ← curVarint
  if (← hasError) ∨ 2 ^ 31 - 1 < constCount.toNat then fail
  times value constCount.toNat

def readBmapPairs (constantsCount : Nat) : Nat → List Int32 → Reader σ (List Int32)
  | 0, indices => return indices
  | n + 1, indices => do
    let origIdx ← curVarint
    let lowerIdx ← curVarint
    if ← hasError then fail
    if constantsCount ≤ origIdx.toNat ∨ constantsCount ≤ lowerIdx.toNat then fail
    readBmapPairs constantsCount n (indices.set origIdx.toNat (Int32.ofNat lowerIdx.toNat))

def readBmapSection (constantsCount : Nat) : Reader σ (Option (List Int32)) := do
  let count ← curVarint
  if ← hasError then fail
  let indices ← readBmapPairs constantsCount count.toNat (List.replicate constantsCount (-1))
  let _ ← curU64LE
  if ← hasError then fail
  return if constantsCount = 0 then none else some indices

def readUpvalue : Reader σ UpvalueEntry := do
  let index ← curU8
  let isLocal ← curU8
  let isRef ← curU8
  if ← hasError then fail
  return { index := index, isLocal := isLocal != 0, isRef := isRef != 0 }

def readName : Reader σ CString := do
  let name ← curLenPrefixedString
  match name with
  | none => fail
  | some name => do
    if ← hasError then fail
    return CString.ofBuffer name

def readEnclosing (host : CacheHost σ) : Reader σ (Option CString) := do
  let has ← curU8
  if ← hasError then fail
  if has = 0 then
    return none
  let name ← readName
  match host.findProcedureScope (← get) name with
  | none => fail
  | some s => do
    set s
    return some name

/-- an iteration of the loop of `loadProceduresFromStream`, with the routine that is entered -/
def readProcedureEntry (host : CacheHost σ) : Reader σ ProcEntry := do
  let name ← readName
  let addr ← curI32LE
  let locals ← curU16LE
  let upvals ← curU8
  let type ← curU32LE
  let arity ← curU8
  let closureCaptures ← curU8
  let closureEscapes ← curU8
  let enclosing ← readEnclosing host
  let upvalues ← times readUpvalue upvals.toNat
  let entry : ProcEntry :=
    { name := name, bytecodeAddress := addr, localsCount := locals, type := type, arity := arity
      closureCaptures := closureCaptures != 0, closureEscapes := closureEscapes != 0
      enclosing := enclosing, upvalues := upvalues }
  set (host.defineRoutine (← get) entry)
  return entry

def readConstGlobal (host : CacheHost σ) (value : Reader σ (CacheValue ShellFunction)) :
    Reader σ ConstSymbol := do
  let name ← readName
  let type ← curU32LE
  if ← hasError then fail
  let val ← value
  set (host.bindConstGlobal (← get) name type val)
  return { name := name, type := type, value := some val }

def readProcsSection (host : CacheHost σ) (value : Reader σ (CacheValue ShellFunction)) :
    Reader σ (List ProcEntry × List ConstSymbol) := do
  let procCount ← curVarint
  if (← hasError) ∨ 2 ^ 31 - 1 < procCount.toNat then fail
  let procedures ← times (readProcedureEntry host) procCount.toNat
  let constSymCount ← curVarint
  if ← hasError then fail
  let constGlobals ← times (readConstGlobal host value) constSymCount.toNat
  return (procedures, constGlobals)

def TypeAst.isNull : TypeAst → Bool
  | .null => true
  | _ => false

def readTypeEntry (host : CacheHost σ) (levels : Nat) : Reader σ TypeEntry := do
  let name ← readName
  let typeAst ← readAst levels
  if (← hasError) ∨ typeAst.isNull then fail
  set (host.insertType (← get) name typeAst)
  return { name := name, typeAst := typeAst }

def readTypesSection (host : CacheHost σ) (levels : Nat) : Reader σ (List TypeEntry) := do
  let typeCount ← curVarint
  if ← hasError then fail
  times (readTypeEntry host levels) typeCount.toNat

def readChunkCoreInline (host : CacheHost σ) (ops : CodecOps σ ShellFunction) (levels : Nat)
    (version : UInt32) : Reader σ (CachedChunk ShellFunction) := do
  let (code, cacheCount) ← readCodeSection
  let lines ← readLinesSection code.length
  let constants ← readConstSection (readValue ops levels)
  let indices ← readBmapSection constants.length
  let _ ← readProcsSection host (readValue ops levels)
  let _ ← readTypesSection host levels
  return { version := version, frontendKind := host.frontendGetKind, code := code
           cacheCount := cacheCount, lines := lines, constants := constants
           builtinLowercaseIndices := indices }

/-- the case of `writePointerValue` for a shell function, after its kind -/
def writeShellFunction (ops : CodecOps σ ShellFunction) (tables : SymbolTables)
    (fn : ShellFunction) : Option Bytes := do
  let core ← writeChunkCoreInline ops tables fn.chunk
  return bufU32LE fn.chunk.version ++ core

/-- the case of `readPointerValue` for a shell function, after its kind -/
def readShellFunction (host : CacheHost σ) (ops : CodecOps σ ShellFunction) (levels : Nat) :
    Reader σ ShellFunction := do
  let version ← curU32LE
  if ← hasError then fail
  let chunk ← readChunkCoreInline host ops levels version
  match host.linkAndVerify chunk with
  | none => fail
  | some chunk => return .mk chunk

/-- The codec of values whose functions are at most so many levels deep.  The source has one codec
for all depths; the limit on the nesting of values bounds what it reads. -/
def functionOps (host : CacheHost σ) (tables : SymbolTables) : Nat → CodecOps σ ShellFunction
  | 0 =>
    { doubleOfLd := host.doubleOfLd, ldOfDouble := host.ldOfDouble
      floatOfFloat := host.floatOfFloat, doubleOfInt := host.doubleOfInt
      writeFunction := fun _ => none
      readFunction := fun _ => fail }
  | depth + 1 =>
    { doubleOfLd := host.doubleOfLd, ldOfDouble := host.ldOfDouble
      floatOfFloat := host.floatOfFloat, doubleOfInt := host.doubleOfInt
      writeFunction := writeShellFunction (functionOps host tables depth) tables
      readFunction := readShellFunction host (functionOps host tables depth) }

end

end Pscal
