import Mathlib
import Pscal.Bytecode.Chunk
import Pscal.Symbol.Table

/-!
# The peephole pass

`applyPeepholeOptimizations` copies the code of a chunk instruction by instruction, replaces the
instruction sequences it knows, and then patches what holds code addresses.

* `pieceAt`  what the copy loop does at one offset;
* `rewriteLoop`  the loop, with the map of old offsets to new ones;
* `patchJumps`, `patchAbsolutes` the operands in the code;
* `relocateSymbols`, `relocateConstants`  the procedure table and the constant pool.
-/

namespace Pscal

open BytecodeChunk

/-- the code byte of an opcode: the constructors stand in the order of the ordinals -/
def OpCode.byte (op : OpCode) : UInt8 := UInt8.ofNat op.ctorIdx

theorem OpCode.ofByte_byte (op : OpCode) : OpCode.ofByte op.byte = some op := by
  cases op <;> rfl

/-- `asI64` of an integer value: the unsigned 64-bit ones are read as signed -/
def asI64 (t : IntType) (v : Int) : Int :=
  if t = .uint64 ∧ 2 ^ 63 ≤ v then v - 2 ^ 64 else v

def readConstantInt (chunk : BytecodeChunk) (index : Nat) : Option Int :=
  match chunk.constants[index]? with
  | some (.scalar t v) => some (asI64 t v)
  | _ => none

/-! ## the sequences -/

/-- the length and the constant index of a `CONSTANT` or `CONSTANT16` at `offset` -/
def constantAt (chunk : BytecodeChunk) (offset : Nat) : Option (Nat × Nat) :=
  match chunk.opcode? offset with
  | some .constant => if offset + 1 < chunk.count then some (2, chunk.u8 (offset + 1)) else none
  | some .constant16 => if offset + 2 < chunk.count then some (3, chunk.u16 (offset + 1)) else none
  | _ => none

/-- `byte` in any case -/
def isByteName (chunk : BytecodeChunk) (index : Nat) : Bool :=
  match chunk.constants[index]? with
  | some (.str .string (some name)) => strcasecmpEq name "byte"
  | _ => false

/-- an integer of `0 .. 255` that is neither a boolean nor a char -/
def isByteConstant (chunk : BytecodeChunk) (index : Nat) : Bool :=
  match chunk.constants[index]? with
  | some (.scalar t v) => t ≠ .boolean ∧ t ≠ .char ∧ 0 ≤ asI64 t v ∧ asI64 t v ≤ 255
  | _ => false

/-- a constant and a call of `byte` on it: the length of the constant -/
def byteCallAt (chunk : BytecodeChunk) (offset : Nat) : Option Nat :=
  match constantAt chunk offset with
  | none => none
  | some (constantLength, index) =>
    let call := offset + constantLength
    if call + 3 < chunk.count ∧ chunk.opcode? call = some .callBuiltin ∧
        chunk.u8 (call + 3) = 1 ∧ isByteName chunk (chunk.u16 (call + 1)) ∧
        isByteConstant chunk index then some constantLength else none

def adjustment (arithmetic : OpCode) (constant : Int) : Option OpCode :=
  match arithmetic with
  | .add => if constant = 1 then some .incLocal else if constant = -1 then some .decLocal else none
  | .subtract =>
    if constant = 1 then some .decLocal else if constant = -1 then some .incLocal else none
  | _ => none

/-- the bytes that store the top of the stack into local `slot`, from `offset` on -/
def storeLengthAt (chunk : BytecodeChunk) (offset : Nat) (slot : UInt8) : Option Nat :=
  if chunk.opcode? offset = some .setLocal ∧ offset + 1 < chunk.count ∧
      chunk.byte (offset + 1) = slot then some 2
  else if chunk.opcode? offset = some .getLocalAddress ∧ offset + 3 < chunk.count ∧
      chunk.byte (offset + 1) = slot ∧ chunk.opcode? (offset + 2) = some .swap ∧
      chunk.opcode? (offset + 3) = some .setIndirect then some 4
  else none

/-- `GET_LOCAL s`, a constant 1 or -1, `ADD` or `SUBTRACT`, and a store into `s`: the length of
the sequence and the opcode that replaces it -/
def adjustLocalAt (chunk : BytecodeChunk) (offset : Nat) : Option (Nat × OpCode) :=
  if chunk.opcode? offset = some .getLocal ∧ offset + 6 < chunk.count then
    match constantAt chunk (offset + 2) with
    | none => none
    | some (constantLength, index) =>
      let arithmetic := offset + 2 + constantLength
      if arithmetic < chunk.count then
        match chunk.opcode? arithmetic, readConstantInt chunk index with
        | some op, some constant =>
          match adjustment op constant with
          | none => none
          | some replacement =>
            if arithmetic + 1 < chunk.count then
              (storeLengthAt chunk (arithmetic + 1) (chunk.byte (offset + 1))).map fun store =>
                (2 + constantLength + 1 + store, replacement)
            else none
        | _, _ => none
      else none
  else none

/-! ## the copy loop -/

/-- One round of the loop: the bytes it reads, those it writes, and where the bytes it reads go
(counted from the first byte it writes). -/
structure Piece where
  length : Nat
  out : List UInt8
  image : Nat → Nat
  fused : Bool

/-- the code bytes of `[offset, offset + length)` -/
def codeBytes (chunk : BytecodeChunk) (offset length : Nat) : List UInt8 :=
  (chunk.code.drop offset).take length

def pieceAt (chunk : BytecodeChunk) (offset : Nat) : Piece :=
  match byteCallAt chunk offset with
  | some constantLength =>
    { length := constantLength + 4
      out := codeBytes chunk offset constantLength
      image := fun i => if i < constantLength then i else constantLength - 1
      fused := true }
  | none =>
    match adjustLocalAt chunk offset with
    | some (length, replacement) =>
      { length := length
        out := [replacement.byte, chunk.byte (offset + 1)]
        image := fun _ => 0
        fused := true }
    | none =>
      { length := getInstructionLength chunk offset
        out := codeBytes chunk offset (getInstructionLength chunk offset)
        image := id
        fused := false }

structure JumpFixup where
  originalTarget : Int
  newOffset : Nat
deriving DecidableEq, Repr

structure AbsoluteFixup where
  operandOffset : Nat
  originalAddress : Int
deriving DecidableEq, Repr

/-- `write_index` is the length of `code`; an offset without an image is `none` in `offsetMap` -/
structure Rewrite where
  readIndex : Nat := 0
  code : List UInt8 := []
  lines : List Int := []
  offsetMap : Nat → Option Nat := fun _ => none
  jumpFixes : List JumpFixup := []
  absoluteFixes : List AbsoluteFixup := []
  changed : Bool := false

def pieceLines (chunk : BytecodeChunk) (offset : Nat) (piece : Piece) : List Int :=
  if piece.fused ∧ piece.out.length = 2 then
    List.replicate 2 (chunk.lines.getD offset 0)
  else (List.range piece.out.length).map fun i => chunk.lines.getD (offset + i) 0

/-- the jump at `offset`, if the loop notes one -/
def jumpFixupAt (chunk : BytecodeChunk) (offset newOffset : Nat) : List JumpFixup :=
  if (chunk.opcode? offset = some .jump ∨ chunk.opcode? offset = some .jumpIfFalse) ∧
      offset + 4 < chunk.count then
    [⟨offset + 5 + chunk.i32 (offset + 1), newOffset⟩]
  else []

def absoluteFixupAt (chunk : BytecodeChunk) (offset newOffset : Nat) : List AbsoluteFixup :=
  if chunk.opcode? offset = some .threadCreate ∧ offset + 4 < chunk.count then
    [⟨newOffset + 1, chunk.i32 (offset + 1)⟩]
  else []

def rewriteStep (chunk : BytecodeChunk) (st : Rewrite) : Rewrite :=
  let offset := st.readIndex
  let piece := pieceAt chunk offset
  let writeIndex := st.code.length
  { readIndex := offset + piece.length
    code := st.code ++ piece.out
    lines := st.lines ++ pieceLines chunk offset piece
    offsetMap := fun k =>
      if offset ≤ k ∧ k < offset + piece.length ∧ k < chunk.count then
        some (writeIndex + piece.image (k - offset))
      else st.offsetMap k
    jumpFixes :=
      if piece.fused then st.jumpFixes
      else st.jumpFixes ++ jumpFixupAt chunk offset writeIndex
    absoluteFixes :=
      if piece.fused then st.absoluteFixes
      else st.absoluteFixes ++ absoluteFixupAt chunk offset writeIndex
    changed := st.changed || piece.fused }

/-- every round reads a byte at least, so `count` rounds are enough -/
def rewriteLoop (chunk : BytecodeChunk) : Nat → Rewrite → Rewrite
  | 0, st => st
  | room + 1, st =>
    if st.readIndex < chunk.count then rewriteLoop chunk room (rewriteStep chunk st) else st

def rewriteCode (chunk : BytecodeChunk) : Rewrite :=
  let st := rewriteLoop chunk chunk.count {}
  { st with offsetMap := Function.update st.offsetMap chunk.count (some st.code.length) }

/-- `original_instruction_starts` without the end of the code; `none`: an instruction that does
not fit -/
def instructionStarts (chunk : BytecodeChunk) : Nat → Nat → Option (List Nat)
  | 0, _ => some []
  | room + 1, offset =>
    if offset < chunk.count then
      if chunk.count < offset + getInstructionLength chunk offset then none
      else (instructionStarts chunk room (offset + getInstructionLength chunk offset)).map
        (offset :: ·)
    else some []

/-! ## the operands in the code -/

/-- the four bytes of a 32-bit operand -/
def int32Bytes (v : Int) : List UInt8 :=
  [UInt8.ofNat (v / 2 ^ 24 % 256).toNat, UInt8.ofNat (v / 2 ^ 16 % 256).toNat,
    UInt8.ofNat (v / 2 ^ 8 % 256).toNat, UInt8.ofNat (v % 256).toNat]

def patchInt32 (code : List UInt8) (pos : Nat) (v : Int) : List UInt8 :=
  code.take pos ++ int32Bytes v ++ code.drop (pos + 4)

/-- the new target of a jump; `none`: an error, the operand stays -/
def jumpTarget (count : Nat) (starts : List Nat) (offsetMap : Nat → Option Nat) (target : Int) :
    Option Nat :=
  if target = count then offsetMap count
  else if 0 ≤ target ∧ target < count ∧ target.toNat ∈ starts then offsetMap target.toNat
  else none

/-- the code with its jumps patched, and whether one had no target -/
def patchJumps (count : Nat) (starts : List Nat) (offsetMap : Nat → Option Nat) :
    List JumpFixup → List UInt8 → List UInt8 × Bool
  | [], code => (code, false)
  | fix :: fixes, code =>
    match jumpTarget count starts offsetMap fix.originalTarget with
    | some target =>
      patchJumps count starts offsetMap fixes
        (patchInt32 code (fix.newOffset + 1) ((target : Int) - (fix.newOffset + 5)))
    | none => ((patchJumps count starts offsetMap fixes code).1, true)

/-- `offset_map` of an address, the end of the code where it has none; addresses outside the code
count as its first byte or its end -/
def mappedAddress (count : Nat) (offsetMap : Nat → Option Nat) (address : Int) : Nat :=
  (offsetMap (min address.toNat count)).getD ((offsetMap count).getD 0)

def patchAbsolutes (count : Nat) (offsetMap : Nat → Option Nat) (fixes : List AbsoluteFixup)
    (code : List UInt8) : List UInt8 :=
  fixes.foldl (fun code fix => patchInt32 code fix.operandOffset
    (mappedAddress count offsetMap fix.originalAddress)) code

/-! ## the procedure table and the constant pool -/

/-- the buckets of `procedure_table`; tables inside them are not visited -/
def relocateSymbols (count : Nat) (offsetMap : Nat → Option Nat) (heap : SymbolRef → Symbol) :
    List SymbolRef → SymbolRef → Symbol
  | [] => heap
  | r :: rest =>
    let s := heap r
    let heap :=
      if resolveSymbolAlias heap r = r ∧ s.isDefined ∧ 0 ≤ s.bytecodeAddress ∧
          s.bytecodeAddress ≤ count then
        Function.update heap r
          { s with bytecodeAddress := mappedAddress count offsetMap s.bytecodeAddress }
      else heap
    relocateSymbols count offsetMap heap rest

/-- a code address the compiler put into the pool; `elementIndex` is that of a v-table -/
structure AddressConstantEntry where
  constantIndex : Nat
  originalAddress : Int
  elementIndex : Option Nat := none
  symbolName : Option String := none
  symbolRef : Option SymbolRef := none
deriving DecidableEq, Repr

/-- `IntType`'s range by `pscalValueSetIntBits` -/
def setIntBits (t : IntType) (v : Int) : Int :=
  match t with
  | .boolean => if v ≠ 0 then 1 else 0
  | .int8 => (v + 2 ^ 7) % 2 ^ 8 - 2 ^ 7
  | .byte | .uint8 | .char => v % 2 ^ 8
  | .int16 => (v + 2 ^ 15) % 2 ^ 16 - 2 ^ 15
  | .word | .uint16 => v % 2 ^ 16
  | .int32 | .thread => (v + 2 ^ 31) % 2 ^ 32 - 2 ^ 31
  | .uint32 | .widechar => v % 2 ^ 32
  | .int64 => (v + 2 ^ 63) % 2 ^ 64 - 2 ^ 63
  | .uint64 => v % 2 ^ 64

def usableAddress (heap : SymbolRef → Symbol) (r : SymbolRef) : Option Int :=
  if (heap r).isDefined ∧ 0 ≤ (heap r).bytecodeAddress then some (heap r).bytecodeAddress else none

section
variable (count : Nat) (offsetMap : Nat → Option Nat) (procedures : Procedures)

/-- the routine an entry names, looked up in the (relocated) procedure table -/
def namedTarget (entry : AddressConstantEntry) : Option SymbolRef :=
  entry.symbolName.bind fun name =>
    (hashTableLookup procedures.heap procedures.table name).map (resolveSymbolAlias procedures.heap)

/-- the new address of an entry: that of its routine, else where its old address went -/
def entryAddress (entry : AddressConstantEntry) : Int :=
  let heap := procedures.heap
  let target := entry.symbolRef.map (resolveSymbolAlias heap)
  let target :=
    if (target.bind (usableAddress heap)).isNone ∧ entry.symbolName.isSome then
      namedTarget procedures entry
    else target
  match (target.map (resolveSymbolAlias heap)).bind (usableAddress heap) with
  | some address => address
  | none =>
    match (namedTarget procedures entry).bind (usableAddress heap) with
    | some address => address
    | none => mappedAddress count offsetMap entry.originalAddress

/-- `SET_INT_VALUE`: other types keep their word -/
def Value.setInt (v : Value) (n : Int) : Value :=
  match v with
  | .scalar t _ => .scalar t (setIntBits t n)
  | v => v

/-- the constant of an entry with its new address -/
def relocateConstant (entry : AddressConstantEntry) (v : Value) : Value :=
  let address := entryAddress count offsetMap procedures entry
  match entry.elementIndex with
  | some i =>
    match v with
    | .array elem elems =>
      if i < elems.length then
        .array elem (elems.set i (.scalar .int32 (setIntBits .int32 address)))
      else v
    | v => v
  | none => v.setInt address

def relocateConstants (entries : List AddressConstantEntry) (constants : List Value) : List Value :=
  entries.foldl (fun constants entry =>
    constants.modify entry.constantIndex (relocateConstant count offsetMap procedures entry))
    constants

end

structure PeepholeResult where
  chunk : BytecodeChunk
  procedures : Procedures
  hadError : Bool := false

def applyPeepholeOptimizations (chunk : BytecodeChunk) (procedures : Procedures)
    (entries : List AddressConstantEntry) : PeepholeResult :=
  if chunk.count = 0 then ⟨chunk, procedures, false⟩
  else match instructionStarts chunk chunk.count 0 with
    | none => ⟨chunk, procedures, true⟩
    | some starts =>
      let rw := rewriteCode chunk
      if rw.changed = false then ⟨chunk, procedures, false⟩
      else
        let (code, badJump) := patchJumps chunk.count starts rw.offsetMap rw.jumpFixes rw.code
        let code := patchAbsolutes chunk.count rw.offsetMap rw.absoluteFixes code
        let heap := relocateSymbols chunk.count rw.offsetMap procedures.heap procedures.table.top
        let procedures := { procedures with heap := heap }
        let constants :=
          relocateConstants chunk.count rw.offsetMap procedures entries chunk.constants
        ⟨{ chunk with code := code, lines := rw.lines, constants := constants }, procedures,
          badJump⟩

end Pscal
