import Mathlib
import Pscal.Bytecode.Chunk

/-!
# What an instruction refers to, and where control goes after it

The instruction set seen from outside the verifier:

* `InstrStart chunk pc`  the offset `pc` is the first byte of an instruction of the code section,
  read from offset 0;
* `WholeAt chunk pc`  the instruction at `pc` has a defined opcode and lies inside the code;
* `tableRefs chunk pc`  the tables the operands of the instruction at `pc` index;
* `Flow chunk pc t`  control can continue at `t` after the instruction at `pc`.
-/

namespace Pscal

/-! ## the instruction stream -/

inductive InstrStart (chunk : BytecodeChunk) : Nat → Prop where
  | first : 0 < chunk.count → InstrStart chunk 0
  | next {pc : Nat} : InstrStart chunk pc →
      pc + getInstructionLength chunk pc < chunk.count →
      InstrStart chunk (pc + getInstructionLength chunk pc)

variable {chunk : BytecodeChunk} {pc n : Nat} {op : OpCode}

theorem InstrStart.lt (h : InstrStart chunk pc) : pc < chunk.count := by
  cases h with
  | first h0 => exact h0
  | next _ hlt => exact hlt

theorem InstrStart.apart {r j : Nat} (hr : InstrStart chunk r) (hj : InstrStart chunk j) (h : r < j)
    : r + getInstructionLength chunk r ≤ j := by
  induction j using Nat.strongRecOn generalizing r with
  | ind j ih =>
    cases hj with
    | first => exact absurd h (Nat.not_lt_zero _)
    | @next p hp hlt =>
      have hpos : 0 < getInstructionLength chunk p := decodeInstructionLength_pos chunk p
      rcases Nat.lt_trichotomy r p with hlt' | rfl | hgt
      · have := ih p (by omega) hr hp hlt'
        omega
      · exact Nat.le_refl _
      · have := ih r h hp hr hgt
        omega

theorem InstrStart.past {r j : Nat} (hr : InstrStart chunk r)
    (hn : getInstructionLength chunk r = n) (hj : InstrStart chunk j) (hne : j ≠ r) (h : r ≤ j) :
    r + n ≤ j := by
  rw [← hn]
  exact hr.apart hj (by omega)

/-! ## lengths -/

theorem decodeInstructionLength_of_fixed (hlt : pc < chunk.count) (hop : chunk.opcode? pc = some op)
    (hn : op.info.operands.length? = some n) :
    pscalDecodeInstructionLength chunk pc = ⟨true, 1 + n⟩ := by
  unfold pscalDecodeInstructionLength
  rw [if_pos hlt, hop]
  cases op <;> first | (cases hn; done) | (dsimp only; rw [hn])

theorem getInstructionLength_of_fixed (hlt : pc < chunk.count) (hop : chunk.opcode? pc = some op)
    (hn : op.info.operands.length? = some n) : getInstructionLength chunk pc = 1 + n :=
  congrArg DecodedLength.length (decodeInstructionLength_of_fixed hlt hop hn)

theorem InstrStart.step {chunk : BytecodeChunk} {pc n : Nat} (h : InstrStart chunk pc)
    (hn : getInstructionLength chunk pc = n) (hlt : pc + n < chunk.count) :
    InstrStart chunk (pc + n) := by
  rw [← hn] at hlt ⊢
  exact .next h hlt

structure WholeAt (chunk : BytecodeChunk) (pc : Nat) : Prop where
  defined : ∃ op, chunk.opcode? pc = some op
  decoded : (pscalDecodeInstructionLength chunk pc).ok = true
  inside : pc + getInstructionLength chunk pc ≤ chunk.count

/-! ## operands -/

/-- an index an operand holds, with the table it goes into; a code offset may lie anywhere -/
inductive TableRef where
  | const (idx : Nat)
  | cache (idx : Nat)
  | slot (idx : Nat)
  | hostFn (idx : Nat)
  | code (target : Int)
deriving DecidableEq, Repr

/-- a constant operand that may hold the "no element type" sentinel -/
def optionalConst (idx : Nat) : List TableRef := if idx = 0xFFFF then [] else [.const idx]

/-- the bound constants of `dims` dimensions; the pair `0xFFFF 0xFFFF` stands for bounds
computed at run time and names no constant -/
def arrayBoundRefs (chunk : BytecodeChunk) : Nat → Nat → List TableRef
  | 0, _ => []
  | dims + 1, cursor =>
    let lo := chunk.u16 cursor
    let hi := chunk.u16 (cursor + 2)
    (if lo = 0xFFFF ∧ hi = 0xFFFF then [] else [.const lo, .const hi]) ++
      arrayBoundRefs chunk dims (cursor + 4)

/-- `[dims:b] { [lo:K][hi:K] }*dims [elem_type:b][elem_name:K]` at `cursor` -/
def arrayPayloadRefs (chunk : BytecodeChunk) (cursor : Nat) : List TableRef :=
  let dims := chunk.u8 cursor
  arrayBoundRefs chunk dims (cursor + 1) ++ [.const (chunk.u16 (cursor + 1 + dims * 4 + 1))]

/-- the `DEFINE_GLOBAL` payload behind the name or slot field -/
def definePayloadRefs (chunk : BytecodeChunk) (typePos : Nat) : List TableRef :=
  let cursor := typePos + 1
  match VarType.ofByte (chunk.byte typePos) with
  | some .array => arrayPayloadRefs chunk cursor
  | some .string => [.const (chunk.u16 cursor), .const (chunk.u16 (cursor + 2))]
  | some .file => .const (chunk.u16 cursor) :: optionalConst (chunk.u16 (cursor + 3))
  | _ => [.const (chunk.u16 cursor)]

/-- what one fixed-width operand at `cursor` names; `nextPc` is where a jump counts from -/
def operandRef (chunk : BytecodeChunk) (nextPc : Nat) (op : Operand) (cursor : Nat) :
    List TableRef :=
  match op with
  | .k => [.const (chunk.u8 cursor)]
  | .K => [.const (chunk.u16 cursor)]
  | .c => [.cache (chunk.u16 cursor)]
  | .s => [.slot (chunk.u16 cursor)]
  | .W => [.code (chunk.u32 cursor)]
  | .j => [.code (nextPc + chunk.i32 cursor)]
  | .b | .i | .w | .f | .C => []

/-- the references of fixed-width operands from `cursor` on -/
def operandRefs (chunk : BytecodeChunk) (nextPc : Nat) : List Operand → Nat → List TableRef
  | [], _ => []
  | op :: ops, cursor =>
    operandRef chunk nextPc op cursor ++ operandRefs chunk nextPc ops (cursor + op.width)

/-- every table entry the instruction at `pc` names -/
def tableRefs (chunk : BytecodeChunk) (pc : Nat) : List TableRef :=
  match chunk.opcode? pc with
  | none => []
  | some .defineGlobal => .const (chunk.u8 (pc + 1)) :: definePayloadRefs chunk (pc + 2)
  | some .defineGlobal16 => .const (chunk.u16 (pc + 1)) :: definePayloadRefs chunk (pc + 3)
  | some .defineGlobalSlot => .slot (chunk.u16 (pc + 1)) :: definePayloadRefs chunk (pc + 3)
  | some .initLocalArray | some .initFieldArray => arrayPayloadRefs chunk (pc + 2)
  | some .initLocalFile => optionalConst (chunk.u16 (pc + 3))
  | some .callHost => [.hostFn (chunk.u8 (pc + 1))]
  | some op =>
    match op.info.operands with
    | .fixed ops => operandRefs chunk (pc + getInstructionLength chunk pc) ops (pc + 1)
    | .variable => []

theorem tableRefs_fixed {ops : List Operand} (hop : chunk.opcode? pc = some op)
    (hlay : op.info.operands = .fixed ops) (hhost : op ≠ .callHost) (hfile : op ≠ .initLocalFile) :
    tableRefs chunk pc =
      operandRefs chunk (pc + getInstructionLength chunk pc) ops (pc + 1) := by
  rw [tableRefs, hop]
  split <;> rename_i heq
  · cases heq
  all_goals
    first
    | (cases heq; cases hlay; done)
    | (cases heq; contradiction)
    | skip
  cases heq
  rw [hlay]

/-- the reference names an entry its table has; `hostFns` is the number of host functions -/
def TableRef.InTable (chunk : BytecodeChunk) (hostFns : Nat) : TableRef → Prop
  | .const idx => idx < chunk.constants.length
  | .cache idx => idx < chunk.cacheCount
  | .slot idx => idx < chunk.globalSlotCount
  | .hostFn idx => idx < hostFns
  | .code target => ∃ n : Nat, target = n ∧ InstrStart chunk n

/-! ## control flow -/

/-- the instructions control never leaves by falling through or jumping -/
def OpCode.isTerminal : OpCode → Bool
  | .returnOp | .exit | .halt => true
  | _ => false

/-- `t` is a successor of the instruction at `pc`: the byte after it (also the return point of
a call), or the target of a jump -/
inductive Flow (chunk : BytecodeChunk) (pc : Nat) : Int → Prop where
  | fall {op : OpCode} (hop : chunk.opcode? pc = some op) (hterm : op.isTerminal = false)
      (hjump : op ≠ .jump) : Flow chunk pc (pc + getInstructionLength chunk pc : Nat)
  | jump {op : OpCode} (hop : chunk.opcode? pc = some op)
      (hjump : op = .jump ∨ op = .jumpIfFalse) :
      Flow chunk pc ((pc + getInstructionLength chunk pc : Nat) + chunk.i32 (pc + 1))

def FlowStep (chunk : BytecodeChunk) (x y : Int) : Prop :=
  ∃ pc : Nat, x = pc ∧ pc < chunk.count ∧ Flow chunk pc y

/-- control that starts at offset `a` can come to `x` without a call -/
def Reaches (chunk : BytecodeChunk) (a : Nat) (x : Int) : Prop :=
  Relation.ReflTransGen (FlowStep chunk) (a : Int) x

/-! ## the same bytes decode to the same instruction -/

section
variable {chunk chunk' : BytecodeChunk} {offset offset' n : Nat}
  (hin : offset + n ≤ chunk.count) (hin' : offset' + n ≤ chunk'.count)
  (hbytes : ∀ i, i < n → chunk'.byte (offset' + i) = chunk.byte (offset + i))

include hbytes in
theorem opcode?_congr (hn : 0 < n) : chunk'.opcode? offset' = chunk.opcode? offset := by
  have h0 := hbytes 0 hn
  rw [Nat.add_zero, Nat.add_zero] at h0
  rw [BytecodeChunk.opcode?, BytecodeChunk.opcode?, h0]

include hin hin'

theorem decodeDefineGlobalLength_congr {w : Nat}
    (hbytes : ∀ i, w < i → i < n → chunk'.byte (offset' + i) = chunk.byte (offset + i))
    (h : decodeDefineGlobalLength w chunk offset = ⟨true, n⟩) :
    decodeDefineGlobalLength w chunk' offset' = ⟨true, n⟩ := by
  unfold decodeDefineGlobalLength at h ⊢
  dsimp only at h ⊢
  split at h
  · cases h
  · have hn : 1 + w < n := by
      split at h
      · split at h
        · cases h
          omega
        · cases h
      all_goals
        cases h
        omega
    have htype := hbytes (1 + w) (by omega) hn
    rw [← Nat.add_assoc, ← Nat.add_assoc] at htype
    rw [if_neg (by omega), htype]
    split at h
    · split at h
      · have hdims := hbytes (1 + w + 1) (by omega) (by cases h; omega)
        rw [← Nat.add_assoc, ← Nat.add_assoc, ← Nat.add_assoc, ← Nat.add_assoc] at hdims
        have hu8 : chunk'.u8 (offset' + 1 + w + 1) = chunk.u8 (offset + 1 + w + 1) :=
          congrArg UInt8.toNat hdims
        have hlong : 1 + w + 1 < n := by
          cases h
          omega
        rw [if_pos (by omega), hu8]
        exact h
      · cases h
    all_goals exact h

include hbytes

theorem decodeInitArrayLength_congr (h : decodeInitArrayLength chunk offset = ⟨true, n⟩) :
    decodeInitArrayLength chunk' offset' = ⟨true, n⟩ := by
  unfold decodeInitArrayLength at h ⊢
  split at h
  · cases h
  · have hn : 2 < n := by
      cases h
      omega
    have hu8 : chunk'.u8 (offset' + 2) = chunk.u8 (offset + 2) :=
      congrArg UInt8.toNat (hbytes 2 hn)
    rw [if_neg (by omega), hu8]
    exact h

theorem decodeInstructionLength_congr (h : pscalDecodeInstructionLength chunk offset = ⟨true, n⟩) :
    pscalDecodeInstructionLength chunk' offset' = ⟨true, n⟩ := by
  have hpos : 0 < n := by
    have := decodeInstructionLength_pos chunk offset
    rwa [h] at this
  have hop := opcode?_congr hbytes hpos
  unfold pscalDecodeInstructionLength at h ⊢
  rw [if_pos (by omega)] at h
  rw [if_pos (by omega), hop]
  split at h
  · exact decodeInitArrayLength_congr hin hin' hbytes h
  · exact decodeInitArrayLength_congr hin hin' hbytes h
  · exact decodeDefineGlobalLength_congr hin hin' (fun i _ => hbytes i) h
  · exact decodeDefineGlobalLength_congr hin hin' (fun i _ => hbytes i) h
  · exact decodeDefineGlobalLength_congr hin hin' (fun i _ => hbytes i) h
  · rename_i op h₁ h₂ h₃ h₄ h₅ hop'
    exact h
  · cases h

end
end Pscal
