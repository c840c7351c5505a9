import Pscal.Bytecode.Opcode
import Pscal.Core.Value

/-!
# Chunks and instruction lengths

The code section of a chunk, its big-endian reads, and `pscalDecodeInstructionLength`
(`bytecode.c`), the one decoder of instruction lengths behind the disassembler, the verifier
and the peephole pass.
-/

namespace Pscal

structure BytecodeChunk where
  code : List UInt8
  constants : List Value := []
  cacheCount : Nat := 0
  globalSlotCount : Nat := 0
  lines : List Int := []

namespace BytecodeChunk

def count (chunk : BytecodeChunk) : Nat := chunk.code.length

/-- `chunk->code[pos]`; callers read inside `[0, count)` only -/
def byte (chunk : BytecodeChunk) (pos : Nat) : UInt8 := chunk.code.getD pos 0

def u8 (chunk : BytecodeChunk) (pos : Nat) : Nat := (chunk.byte pos).toNat

/-- `verifyReadU16BE` -/
def u16 (chunk : BytecodeChunk) (pos : Nat) : Nat := 256 * chunk.u8 pos + chunk.u8 (pos + 1)

/-- `verifyReadU32BE` -/
def u32 (chunk : BytecodeChunk) (pos : Nat) : Nat :=
  65536 * chunk.u16 pos + chunk.u16 (pos + 2)

/-- the cast `(int32_t)` of a 32-bit read -/
def toInt32 (n : Nat) : Int := if n < 2 ^ 31 then n else (n : Int) - 2 ^ 32

def i32 (chunk : BytecodeChunk) (pos : Nat) : Int := toInt32 (chunk.u32 pos)

def opcode? (chunk : BytecodeChunk) (pc : Nat) : Option OpCode := OpCode.ofByte (chunk.byte pc)

end BytecodeChunk

/-! ## instruction lengths -/

/-- what `pscalDecodeInstructionLength` gives back: the length, and whether it can be trusted -/
structure DecodedLength where
  ok : Bool
  length : Nat
deriving DecidableEq, Repr

/-- bytes of `{ [lo:K][hi:K] }*dims [elem_type:b][elem_name:K]` -/
def arrayTailLength (dims : Nat) : Nat := dims * 4 + 3

/-- the `DEFINE_GLOBAL` family; `nameWidth` is the width of the leading name or slot field -/
def decodeDefineGlobalLength (nameWidth : Nat) (chunk : BytecodeChunk) (offset : Nat) :
    DecodedLength :=
  let typePos := offset + 1 + nameWidth
  if chunk.count ≤ typePos then ⟨false, 1⟩
  else match VarType.ofByte (chunk.byte typePos) with
    | some .array =>
      if typePos + 1 < chunk.count then
        ⟨true, nameWidth + 2 + 1 + arrayTailLength (chunk.u8 (typePos + 1))⟩
      else ⟨false, nameWidth + 2⟩
    | some .string => ⟨true, nameWidth + 2 + 4⟩
    | some .file => ⟨true, nameWidth + 2 + 5⟩
    | _ => ⟨true, nameWidth + 2 + 2⟩

/-- `INIT_LOCAL_ARRAY` and `INIT_FIELD_ARRAY` -/
def decodeInitArrayLength (chunk : BytecodeChunk) (offset : Nat) : DecodedLength :=
  if chunk.count ≤ offset + 2 then ⟨false, 1⟩
  else ⟨true, 3 + arrayTailLength (chunk.u8 (offset + 2))⟩

def pscalDecodeInstructionLength (chunk : BytecodeChunk) (offset : Nat) : DecodedLength :=
  if offset < chunk.count then
    match chunk.opcode? offset with
    | some .initFieldArray | some .initLocalArray => decodeInitArrayLength chunk offset
    | some .defineGlobal => decodeDefineGlobalLength 1 chunk offset
    | some .defineGlobal16 => decodeDefineGlobalLength 2 chunk offset
    | some .defineGlobalSlot => decodeDefineGlobalLength 2 chunk offset
    | some op =>
      match op.info.operands.length? with
      | some operandLen => ⟨true, 1 + operandLen⟩
      | none => ⟨false, 1⟩
    | none => ⟨false, 1⟩
  else ⟨false, 1⟩

def getInstructionLength (chunk : BytecodeChunk) (offset : Nat) : Nat :=
  (pscalDecodeInstructionLength chunk offset).length

theorem decodeDefineGlobalLength_pos (w : Nat) (chunk : BytecodeChunk) (offset : Nat) :
    0 < (decodeDefineGlobalLength w chunk offset).length := by
  unfold decodeDefineGlobalLength
  dsimp only
  split
  · exact Nat.one_pos
  · split
    · split <;> dsimp only <;> omega
    all_goals simp

theorem decodeInitArrayLength_pos (chunk : BytecodeChunk) (offset : Nat) :
    0 < (decodeInitArrayLength chunk offset).length := by
  unfold decodeInitArrayLength
  split
  · exact Nat.one_pos
  · dsimp only
    omega

theorem decodeInstructionLength_pos (chunk : BytecodeChunk) (offset : Nat) :
    0 < (pscalDecodeInstructionLength chunk offset).length := by
  unfold pscalDecodeInstructionLength
  split
  · split
    · exact decodeInitArrayLength_pos chunk offset
    · exact decodeInitArrayLength_pos chunk offset
    · exact decodeDefineGlobalLength_pos 1 chunk offset
    · exact decodeDefineGlobalLength_pos 2 chunk offset
    · exact decodeDefineGlobalLength_pos 2 chunk offset
    · split
      · dsimp only
        omega
      · exact Nat.one_pos
    · exact Nat.one_pos
  · exact Nat.one_pos

end Pscal
