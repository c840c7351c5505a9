import Pscal.Cache.Sections

/-!
# The PSB3 container

`core/cache.c`: a header, a directory of sections, and the bodies of the sections, each on an
eight-byte boundary.

* `psb3Sections`, `psb3Offsets`, `psb3Bodies`, `psb3Write`  the writer;
* `Psb3File`, `psb3ParseHeader`  the header and the directory, with their checks;
* `psb3FindSection`, `psb3ReadChunk`, `psb3ReadMeta`  the readers of the sections.

A file is the list of its bytes.  What a write that fails leaves behind is left out.
-/

namespace Pscal

open Wire Wire.Reader

/-! ## constants -/

def psb3Magic : UInt32 := 0x50534233

def psb3FormatVersion : UInt16 := 6

def psb3FlagFrontendMask : UInt32 := 0x000000FF

def psb3SectionAlign : Nat := 8

def psb3MaxSections : Nat := 64

def psb3Fourcc (a b c d : Char) : UInt32 :=
  UInt32.ofNat (a.toNat + 2 ^ 8 * b.toNat + 2 ^ 16 * c.toNat + 2 ^ 24 * d.toNat)

def psb3SecCode : UInt32 := psb3Fourcc 'C' 'O' 'D' 'E'
def psb3SecLine : UInt32 := psb3Fourcc 'L' 'I' 'N' 'E'
def psb3SecCons : UInt32 := psb3Fourcc 'C' 'O' 'N' 'S'
def psb3SecProc : UInt32 := psb3Fourcc 'P' 'R' 'O' 'C'
def psb3SecType : UInt32 := psb3Fourcc 'T' 'Y' 'P' 'E'
def psb3SecBmap : UInt32 := psb3Fourcc 'B' 'M' 'A' 'P'
def psb3SecMeta : UInt32 := psb3Fourcc 'M' 'E' 'T' 'A'

def FrontendKind.all : List FrontendKind := [.unknown, .pascal, .rea, .aether, .clike, .shell]

def FrontendKind.code (kind : FrontendKind) : UInt32 := UInt32.ofNat (FrontendKind.all.idxOf kind)

/-- the cast of a code that `frontendKindIsValid` accepts -/
def FrontendKind.ofCode (code : UInt32) : Option FrontendKind := FrontendKind.all[code.toNat]?

/-! ## the writer -/

/-- what is stored of the source: its hash, the hash of the chunk with it, and its path -/
structure MetaSection where
  sourceHash : UInt64
  combinedHash : UInt64
  sourcePath : CString
deriving DecidableEq, Repr

def writeMetaSection (data : MetaSection) : Bytes :=
  bufU64LE data.sourceHash ++ bufU64LE data.combinedHash ++
    bufLenPrefixedBytes data.sourcePath.bytes

section
variable {σ : Type}

/-- the sections in the order of the file; there is a last one for the source, if it is stored -/
def psb3Sections (ops : CodecOps σ ShellFunction) (tables : SymbolTables)
    (chunk : CachedChunk ShellFunction) (source : Option MetaSection) :
    Option (List (UInt32 × Bytes)) := do
  let consts ← writeConstSection ops chunk
  let procs ← writeProcsSection ops tables
  return [(psb3SecCode, writeCodeSection chunk), (psb3SecLine, writeLinesSection chunk),
    (psb3SecCons, consts), (psb3SecBmap, writeBmapSection chunk), (psb3SecProc, procs),
    (psb3SecType, writeTypesSection tables)] ++
      source.toList.map fun data => (psb3SecMeta, writeMetaSection data)

end

def psb3Align (n : Nat) : Nat := (n + (psb3SectionAlign - 1)) / psb3SectionAlign * psb3SectionAlign

def psb3Offsets : Nat → List (UInt32 × Bytes) → List UInt32
  | _, [] => []
  | running, (_, body) :: sections =>
    UInt32.ofNat running :: psb3Offsets (psb3Align (running + body.length)) sections

def psb3Zeros (n : Nat) : Bytes := List.replicate n 0

/-- the loop that writes the bodies, each after zeros up to its offset and before zeros up to the
next boundary -/
def psb3Bodies : Nat → List (UInt32 × Bytes) → Bytes
  | _, [] => []
  | written, (offset, body) :: sections =>
    let pad := offset.toNat - written
    let stop := written + pad + body.length
    psb3Zeros pad ++ body ++ psb3Zeros (psb3Align stop - stop) ++
      psb3Bodies (psb3Align stop) sections

def writeHeader (version : UInt32) (kind : FrontendKind) (count : Nat) : Bytes :=
  bufU32LE psb3Magic ++ bufU16LE psb3FormatVersion ++ bufU16LE version.toUInt16 ++
    bufU32LE (kind.code &&& psb3FlagFrontendMask) ++ bufU32LE (UInt32.ofNat count)

structure Psb3SectionEntry where
  id : UInt32
  offset : UInt32
  length : UInt32
deriving DecidableEq, Repr

def writeSectionEntry (e : Psb3SectionEntry) : Bytes :=
  bufU32LE e.id ++ bufU32LE e.offset ++ bufU32LE e.length

def psb3HeaderSize : Nat := 16

def psb3DirEntrySize : Nat := 12

def psb3Directory (sections : List (UInt32 × Bytes)) : List Psb3SectionEntry :=
  let offsets := psb3Offsets
    (psb3Align (psb3HeaderSize + sections.length * psb3DirEntrySize)) sections
  (offsets.zip sections).map fun p =>
    { id := p.2.1, offset := p.1, length := UInt32.ofNat p.2.2.length }

def psb3Layout (version : UInt32) (kind : FrontendKind) (sections : List (UInt32 × Bytes)) :
    Bytes :=
  let start := psb3HeaderSize + sections.length * psb3DirEntrySize
  writeHeader version kind sections.length ++ (psb3Directory sections).flatMap writeSectionEntry ++
    psb3Bodies start ((psb3Offsets (psb3Align start) sections).zip (sections.map Prod.snd))

/-- the file that is written (`none`: it returns false) -/
def psb3Write {σ : Type} (ops : CodecOps σ ShellFunction) (tables : SymbolTables)
    (chunk : CachedChunk ShellFunction) (source : Option MetaSection) : Option Bytes := do
  let sections ← psb3Sections ops tables chunk source
  return psb3Layout chunk.version chunk.frontendKind sections

/-! ## the header -/

structure Psb3File where
  fileData : Bytes
  formatVersion : UInt16
  vmVersion : UInt16
  flags : UInt32
  frontendKind : FrontendKind
  sections : List Psb3SectionEntry
deriving DecidableEq, Repr

def psb3SectionName (id : UInt32) : String :=
  String.ofList ((le 4 id.toNat).map fun ch =>
    if 0x20 ≤ ch ∧ ch < 0x7F then Char.ofNat ch.toNat else '?')

/-- magic, format version, VM version, flags and section count -/
def readHeader : Reader Unit (UInt32 × UInt16 × UInt16 × UInt32 × UInt32) := do
  let magic ← curU32LE
  let formatVer ← curU16LE
  let vmVer ← curU16LE
  let flags ← curU32LE
  let sectionCount ← curU32LE
  return (magic, formatVer, vmVer, flags, sectionCount)

def readSectionEntry : Reader Unit Psb3SectionEntry := do
  let id ← curU32LE
  let offset ← curU32LE
  let length ← curU32LE
  return { id := id, offset := offset, length := length }

def Psb3SectionEntry.stop (e : Psb3SectionEntry) : Nat := e.offset.toNat + e.length.toNat

def psb3CheckOverlap (e : Psb3SectionEntry) : List Psb3SectionEntry → Except String Unit
  | [] => .ok ()
  | other :: sections =>
    if e.offset.toNat < other.stop ∧ other.offset.toNat < e.stop then
      .error s!"{psb3SectionName e.id} and {psb3SectionName other.id} sections overlap"
    else psb3CheckOverlap e sections

def psb3CheckSections (fileSize : Nat) : List Psb3SectionEntry → Except String Unit
  | [] => .ok ()
  | e :: sections =>
    if 0 < e.length.toNat ∧
        (fileSize ≤ e.offset.toNat ∨ fileSize - e.offset.toNat < e.length.toNat) then
      .error s!"{psb3SectionName e.id} section runs past the end of the file"
    else do
      psb3CheckOverlap e sections
      psb3CheckSections fileSize sections

/-- the directory, after the header -/
def psb3ParseDirectory (pf : Psb3File) (sectionCount : Nat) (c : Input) : Except String Psb3File :=
  match times readSectionEntry sectionCount c () with
  | (some sections, { error := false, .. }, _) => do
    psb3CheckSections pf.fileData.length sections
    return { pf with sections := sections }
  | _ => .error "truncated section directory"

def psb3ParseHeader (fileData : Bytes) : Except String Psb3File :=
  match readHeader { rest := fileData } () with
  | (some (magic, formatVer, vmVer, flags, sectionCount), { error := false, rest }, _) =>
    if magic ≠ psb3Magic then .error "not a PSB3 bytecode file"
    else if formatVer ≠ psb3FormatVersion then
      .error s!"container format {formatVer}, this build reads format {psb3FormatVersion}"
    else if psb3MaxSections < sectionCount.toNat then
      .error s!"implausible section count {sectionCount}"
    else
      let code := flags &&& psb3FlagFrontendMask
      match FrontendKind.ofCode code with
      | none => .error s!"unknown frontend kind {code} in header"
      | some kind =>
        psb3ParseDirectory
          { fileData := fileData, formatVersion := formatVer, vmVersion := vmVer, flags := flags
            frontendKind := kind, sections := [] } sectionCount.toNat { rest := rest }
  | _ => .error s!"truncated header ({fileData.length} bytes)"

/-! ## the sections -/

/-- the bytes of the first section with the id (`none`: there is none) -/
def psb3FindSection (pf : Psb3File) (id : UInt32) : Option Bytes :=
  (pf.sections.find? fun e => e.id = id).map fun e =>
    (pf.fileData.drop e.offset.toNat).take e.length.toNat

section
variable {σ α : Type}

/-- a reader with a cursor of its own, on the section with the id -/
def inSection (pf : Psb3File) (id : UInt32) (m : Reader σ α) : Reader σ α := fun c s =>
  match psb3FindSection pf id with
  | none => (none, c, s)
  | some body =>
    match m { rest := body } s with
    | (a, _, s) => (a, c, s)

/-- with what is entered into the tables of the process -/
def psb3ReadChunk (host : CacheHost σ) (ops : CodecOps σ ShellFunction) (levels : Nat)
    (pf : Psb3File) : Reader σ (CachedChunk ShellFunction × SymbolTables) := do
  -- every section is there before the first is read
  let required := [psb3SecCode, psb3SecLine, psb3SecCons, psb3SecBmap, psb3SecProc, psb3SecType]
  if required.any fun id => (psb3FindSection pf id).isNone then fail
  let (code, cacheCount) ← inSection pf psb3SecCode readCodeSection
  let lines ← inSection pf psb3SecLine (readLinesSection code.length)
  let constants ← inSection pf psb3SecCons (readConstSection (readValue ops levels))
  let indices ← inSection pf psb3SecBmap (readBmapSection constants.length)
  let (procedures, constGlobals) ← inSection pf psb3SecProc
    (readProcsSection host (readValue ops levels))
  let types ← inSection pf psb3SecType (readTypesSection host levels)
  return ({ version := pf.vmVersion.toUInt32, frontendKind := pf.frontendKind, code := code
            cacheCount := cacheCount, lines := lines, constants := constants
            builtinLowercaseIndices := indices },
    { procedures := procedures, constGlobals := constGlobals, types := types })

def readMetaSection : Reader σ MetaSection := do
  let sourceHash ← curU64LE
  let combinedHash ← curU64LE
  let sourcePath ← readName
  return { sourceHash := sourceHash, combinedHash := combinedHash, sourcePath := sourcePath }

def psb3ReadMeta (pf : Psb3File) : Reader σ MetaSection := inSection pf psb3SecMeta readMetaSection

end

end Pscal
