import Pscal.Bytecode.Stream
import Pscal.Link.SlotsSpec

/-!
# The decoders of an instruction

Besides `pscalDecodeInstructionLength` four places walk over the operands of an instruction on
their own.  Each is modelled by the offset it ends at:

* `disassembleInstruction`  the disassembler (`bytecode.c`);
* `vmDispatch`  one round of the dispatch loop (`vm.c`);
* `walkVariablePayloadEnd`  the payload walk of the verifier (`bytecode_verify.c`);
* `defineGlobalSlotPayloadLength`  the linker (`Pscal.Link.Slots`).

`decoders_agree` says that they end at one place.
-/

namespace Pscal

open BytecodeChunk

/-- two 16-bit reads for each of `dims` dimensions -/
def readBounds : Nat → Nat → Nat
  | 0, cursor => cursor
  | dims + 1, cursor => readBounds dims (cursor + 2 + 2)

theorem readBounds_eq (dims cursor : Nat) : readBounds dims cursor = cursor + dims * 4 := by
  induction dims generalizing cursor with
  | zero => rw [readBounds, Nat.zero_mul, Nat.add_zero]
  | succ dims ih =>
    rw [readBounds, ih]
    omega

/-! ## the verifier -/

/-- the cursor at the end of the `DEFINE_GLOBAL` branch, from the type byte on -/
def walkDefineGlobalEnd (chunk : BytecodeChunk) (typePos : Nat) : Nat :=
  let cursor := typePos + 1
  match VarType.ofByte (chunk.byte typePos) with
  | some .array => readBounds (chunk.u8 cursor) (cursor + 1) + 1 + 2
  | some .string => cursor + 2 + 2
  | some .file => cursor + 2 + 1 + 2
  | _ => cursor + 2

/-- the cursor at the end of `walkVariablePayload` -/
def walkVariablePayloadEnd (chunk : BytecodeChunk) (pc : Nat) : Nat :=
  match chunk.opcode? pc with
  | some .defineGlobal => walkDefineGlobalEnd chunk (pc + 2)
  | some .defineGlobal16 | some .defineGlobalSlot => walkDefineGlobalEnd chunk (pc + 3)
  | _ => readBounds (chunk.u8 (pc + 2)) (pc + 3) + 1 + 2

/-! ## the VM -/

/-- `READ_BYTE`, `READ_SHORT` and `READ_UINT32` -/
inductive VmRead where
  | byte | short | uint32

def VmRead.width : VmRead → Nat
  | .byte => 1
  | .short => 2
  | .uint32 => 4

/-- the opcodes without a `case` in the dispatch switch: "unknown opcode" -/
def OpCode.isRetired : OpCode → Bool
  | .defineGlobal | .defineGlobal16 | .getGlobal | .setGlobal | .getGlobalAddress | .getGlobal16
  | .setGlobal16 | .getGlobalAddress16 | .getGlobalCached | .setGlobalCached
  | .getGlobal16Cached | .setGlobal16Cached => true
  | _ => false

/-- the operand reads of the `case` of an opcode without a variable payload -/
def OpCode.vmReads : OpCode → List VmRead
  | .constant | .pushImmediateInt8 | .getLocal | .setLocal | .resetLocal | .incLocal | .decLocal
  | .getLocalAddress | .getUpvalue | .setUpvalue | .getUpvalueAddress | .getFieldAddress
  | .getFieldAddressKeep | .loadFieldValueByName | .getElementAddress | .loadElementValue
  | .allocObject | .getFieldOffset | .loadFieldValue | .callHost | .callIndirect
  | .procCallIndirect => [.byte]
  | .constant16 | .getGslot | .setGslot | .getGslotAddress | .getFieldAddress16
  | .getFieldAddressKeep16 | .loadFieldValueByName16 | .allocObject16 | .getFieldOffset16
  | .loadFieldValue16 => [.short]
  | .getElementAddressConst | .loadElementValueConst | .jumpIfFalse | .jump | .threadCreate =>
    [.uint32]
  | .initLocalFile => [.byte, .byte, .short]
  | .initLocalPointer | .pushTypeDefault => [.byte, .short]
  | .initLocalString | .callMethod | .formatValue => [.byte, .byte]
  | .formatValue16 => [.short, .short]
  | .callBuiltinProc => [.short, .short, .byte]
  | .callBuiltin | .callUserProc => [.short, .byte]
  | .call => [.short, .uint32, .byte]
  | _ => []

/-- `handleDefineGlobalSlot`: the reads from the type byte on -/
def handleDefineGlobalSlotEnd (chunk : BytecodeChunk) (ip : Nat) : Nat :=
  match VarType.ofByte (chunk.byte ip) with
  | some .array => readBounds (chunk.u8 (ip + 1)) (ip + 1 + 1) + 1 + 2
  | declared =>
    let ip := ip + 1 + 2
    let ip := if declared = some .file then ip + 1 + 2 else ip
    if declared = some .string then ip + 2 else ip

/-- The instruction pointer after the instruction at `pc` when it falls through; for a call it is
the return address.  `fast`: the stack is not empty, and nothing profiles or traces, so that an
address followed by `SWAP; SET_INDIRECT` runs as one store.  `none`: no `case`. -/
def vmDispatch (chunk : BytecodeChunk) (fast : Bool) (pc : Nat) : Option Nat :=
  match chunk.opcode? pc with
  | none => none
  | some .defineGlobalSlot => some (handleDefineGlobalSlotEnd chunk (pc + 1 + 2))
  | some .initLocalArray | some .initFieldArray =>
    some (readBounds (chunk.u8 (pc + 2)) (pc + 1 + 1 + 1) + 1 + 2)
  | some op =>
    if op.isRetired then none
    else
      let ip := pc + 1 + (op.vmReads.map VmRead.width).sum
      if (op = .getLocalAddress ∨ op = .getGslotAddress) ∧ fast = true ∧ ip + 1 < chunk.count ∧
          chunk.opcode? ip = some .swap ∧ chunk.opcode? (ip + 1) = some .setIndirect then
        some (ip + 2)
      else some ip

/-! ## the disassembler -/

def disassembleBounds (chunk : BytecodeChunk) : Nat → Nat → Nat
  | 0, cursor => cursor
  | dims + 1, cursor =>
    if cursor + 3 < chunk.count then disassembleBounds chunk dims (cursor + 2 + 2)
    else disassembleBounds chunk dims cursor

/-- the payload of the `DEFINE_GLOBAL` family; `DEFINE_GLOBAL16` leaves the tail of a file out -/
def disassembleDefineGlobal (chunk : BytecodeChunk) (fileTail : Bool) (typePos : Nat) : Nat :=
  let cursor := typePos + 1
  match VarType.ofByte (chunk.byte typePos) with
  | some .array =>
    if cursor < chunk.count then
      let cursor := disassembleBounds chunk (chunk.u8 cursor) (cursor + 1)
      if cursor < chunk.count then
        let cursor := cursor + 1
        if cursor + 1 < chunk.count then cursor + 2 else cursor
      else cursor
    else cursor
  | declared =>
    if cursor + 1 < chunk.count then
      let cursor := cursor + 2
      if declared = some .string ∧ cursor + 1 < chunk.count then cursor + 2
      else if fileTail = true ∧ declared = some .file ∧ cursor + 2 < chunk.count then
        cursor + 1 + 2
      else cursor
    else cursor

/-- `disassembleInstruction`: the offset it returns -/
def disassembleInstruction (chunk : BytecodeChunk) (offset : Nat) : Nat :=
  match chunk.opcode? offset with
  | none => offset + 1
  | some op =>
    if op.info.operands = .fixed [] then offset + 1
    else match op with
      | .constant => offset + 2
      | .constant16 => offset + 3
      | .pushImmediateInt8 => offset + 2
      | .jumpIfFalse | .jump => offset + 5
      | .defineGlobal => disassembleDefineGlobal chunk true (offset + 2)
      | .defineGlobal16 => disassembleDefineGlobal chunk false (offset + 3)
      | .getGlobal | .setGlobal => offset + 4
      | .getGlobalCached | .setGlobalCached => offset + 2 + globalInlineCacheSlotSize
      | .getGlobal16 | .setGlobal16 => offset + 5
      | .getGlobal16Cached | .setGlobal16Cached => offset + 3 + globalInlineCacheSlotSize
      | .getGlobalAddress => offset + 2
      | .getGlobalAddress16 => offset + 3
      | .getGslot | .setGslot | .getGslotAddress => offset + 3
      | .defineGlobalSlot => disassembleDefineGlobal chunk true (offset + 3)
      | .getLocal | .setLocal | .incLocal | .decLocal | .getUpvalue | .setUpvalue
      | .getUpvalueAddress | .resetLocal | .getLocalAddress => offset + 2
      | .initFieldArray | .initLocalArray => offset + 6 + chunk.u8 (offset + 2) * 4
      | .initLocalFile => offset + 5
      | .initLocalString => offset + 3
      | .initLocalPointer | .pushTypeDefault => offset + 4
      | .getFieldAddress | .getFieldAddressKeep | .loadFieldValueByName => offset + 2
      | .getFieldAddress16 | .getFieldAddressKeep16 | .loadFieldValueByName16 => offset + 3
      | .allocObject => offset + 2
      | .allocObject16 => offset + 3
      | .getFieldOffset | .loadFieldValue => offset + 2
      | .getFieldOffset16 | .loadFieldValue16 => offset + 3
      | .getElementAddress | .loadElementValue => offset + 2
      | .getElementAddressConst | .loadElementValueConst => offset + 5
      | .callBuiltin => offset + 4
      | .callBuiltinProc => offset + 6
      | .callUserProc => offset + 4
      | .callHost => offset + 2
      | .call => offset + 8
      | .callIndirect | .procCallIndirect => offset + 2
      | .formatValue => offset + 3
      | .formatValue16 => offset + 5
      | .threadCreate => offset + 5
      | _ => offset + 1

/-! ## the payload of the `DEFINE_GLOBAL` family -/

/-- the payload at `typePos` ends at `stop` -/
inductive DefinePayload (chunk : BytecodeChunk) (typePos stop : Nat) : Prop where
  | array (htype : VarType.ofByte (chunk.byte typePos) = some .array)
      (hstop : stop = typePos + 1 + 1 + chunk.u8 (typePos + 1) * 4 + 3)
  | string (htype : VarType.ofByte (chunk.byte typePos) = some .string)
      (hstop : stop = typePos + 1 + 2 + 2)
  | file (htype : VarType.ofByte (chunk.byte typePos) = some .file)
      (hstop : stop = typePos + 1 + 2 + 3)
  | other (harray : VarType.ofByte (chunk.byte typePos) ≠ some .array)
      (hstring : VarType.ofByte (chunk.byte typePos) ≠ some .string)
      (hfile : VarType.ofByte (chunk.byte typePos) ≠ some .file) (hstop : stop = typePos + 1 + 2)

variable {chunk : BytecodeChunk} {pc len : Nat} {op : OpCode}

theorem definePayload_of_decode {w n : Nat} (h : decodeDefineGlobalLength w chunk pc = ⟨true, n⟩) :
    DefinePayload chunk (pc + 1 + w) (pc + n) := by
  unfold decodeDefineGlobalLength at h
  dsimp only at h
  split at h
  · cases h
  · split at h
    · rename_i htype
      split at h
      · cases h
        refine .array htype ?_
        rw [arrayTailLength]
        omega
      · cases h
    · rename_i htype
      cases h
      exact .string htype (by omega)
    · rename_i htype
      cases h
      exact .file htype (by omega)
    · rename_i harray hstring hfile
      cases h
      exact .other harray hstring hfile (by omega)

section
variable {chunk : BytecodeChunk} {typePos stop : Nat} (h : DefinePayload chunk typePos stop)
include h

theorem DefinePayload.walkDefineGlobalEnd : walkDefineGlobalEnd chunk typePos = stop := by
  rw [Pscal.walkDefineGlobalEnd]
  cases h with
  | array htype hstop =>
    rw [htype, hstop]
    dsimp only
    rw [readBounds_eq]
  | string htype hstop => rw [htype, hstop]
  | file htype hstop => rw [htype, hstop]
  | other harray hstring hfile hstop =>
    rw [hstop]
    split <;> first | contradiction | rfl

theorem DefinePayload.handleDefineGlobalSlotEnd :
    handleDefineGlobalSlotEnd chunk typePos = stop := by
  rw [Pscal.handleDefineGlobalSlotEnd]
  cases h with
  | array htype hstop =>
    rw [htype, hstop]
    dsimp only
    rw [readBounds_eq]
  | string htype hstop =>
    rw [htype, hstop]
    rfl
  | file htype hstop =>
    rw [htype, hstop]
    rfl
  | other harray hstring hfile hstop =>
    rw [hstop]
    split
    · contradiction
    · dsimp only
      rw [if_neg hfile, if_neg hstring]

theorem DefinePayload.defineGlobalSlotPayloadLength {pc : Nat} (hpos : typePos = pc + 3)
    (hin : stop ≤ chunk.count) : defineGlobalSlotPayloadLength chunk pc = some (stop - pc) := by
  have hlt : typePos < chunk.count := by
    cases h <;> omega
  subst hpos
  rw [Pscal.defineGlobalSlotPayloadLength, if_neg (by omega)]
  cases h with
  | array htype hstop =>
    rw [show pc + 3 + 1 = pc + 4 from rfl] at hstop
    rw [htype]
    dsimp only
    rw [if_neg (by omega), if_neg (by omega), hstop]
  | string htype hstop =>
    rw [htype]
    dsimp only
    rw [if_pos rfl, if_neg (by omega), hstop]
  | file htype hstop =>
    rw [htype]
    dsimp only
    have hne : some VarType.file ≠ some VarType.string := by decide
    rw [if_neg hne, if_pos rfl, if_neg (by omega), hstop]
  | other harray hstring hfile hstop =>
    split
    · contradiction
    · dsimp only
      rw [if_neg hstring, if_neg hfile, if_neg (by omega), hstop]

omit h in
theorem disassembleBounds_eq {dims cursor : Nat} (hin : cursor + dims * 4 ≤ chunk.count) :
    disassembleBounds chunk dims cursor = cursor + dims * 4 := by
  induction dims generalizing cursor with
  | zero => rw [disassembleBounds, Nat.zero_mul, Nat.add_zero]
  | succ dims ih =>
    rw [disassembleBounds, if_pos (by omega), ih (by omega)]
    omega

theorem DefinePayload.disassembleDefineGlobal {fileTail : Bool} (hin : stop ≤ chunk.count)
    (htail : fileTail = true ∨ VarType.ofByte (chunk.byte typePos) ≠ some .file) :
    disassembleDefineGlobal chunk fileTail typePos = stop := by
  rw [Pscal.disassembleDefineGlobal]
  cases h with
  | array htype hstop =>
    rw [htype]
    dsimp only
    rw [if_pos (by omega), disassembleBounds_eq (by omega), if_pos (by omega), if_pos (by omega),
      hstop]
  | string htype hstop =>
    rw [htype]
    dsimp only
    rw [if_pos (by omega), if_pos ⟨rfl, by omega⟩, hstop]
  | file htype hstop =>
    have htail := htail.resolve_right fun hne => hne htype
    rw [htype]
    dsimp only
    have hroom : fileTail = true ∧ some VarType.file = some VarType.file ∧
        typePos + 1 + 2 + 2 < chunk.count := ⟨htail, rfl, by omega⟩
    rw [if_pos (by omega), if_neg (fun hand => nomatch hand.1), if_pos hroom, hstop]
  | other harray hstring hfile hstop =>
    split
    · contradiction
    · dsimp only
      rw [if_pos (by omega), if_neg fun hand => hstring hand.1, if_neg fun hand => hfile hand.2.1,
        hstop]

end

/-! ## one length -/

def FusedStore (chunk : BytecodeChunk) (fast : Bool) (op : OpCode) (next : Nat) : Prop :=
  (op = .getLocalAddress ∨ op = .getGslotAddress) ∧ fast = true ∧ next + 1 < chunk.count ∧
    chunk.opcode? next = some .swap ∧ chunk.opcode? (next + 1) = some .setIndirect

/-- all decoders end the instruction `op` at `pc` at `next` -/
structure DecodersAgree (chunk : BytecodeChunk) (pc next : Nat) (op : OpCode) : Prop where
  /-- the VM has a case for every opcode that is not retired -/
  executed : ∀ fast, (vmDispatch chunk fast pc).isSome = !op.isRetired
  vm : ∀ fast stop, vmDispatch chunk fast pc = some stop → ¬ FusedStore chunk fast op next →
    stop = next
  /-- a store that runs at once ends behind its three instructions -/
  fused : ∀ fast stop, vmDispatch chunk fast pc = some stop → FusedStore chunk fast op next →
    stop = next + 1 + 1 ∧ pscalDecodeInstructionLength chunk next = ⟨true, 1⟩ ∧
      pscalDecodeInstructionLength chunk (next + 1) = ⟨true, 1⟩
  disassembler : op ≠ .callMethod →
    ¬ (op = .defineGlobal16 ∧ VarType.ofByte (chunk.byte (pc + 3)) = some .file) →
    disassembleInstruction chunk pc = next
  linker : op = .defineGlobalSlot → defineGlobalSlotPayloadLength chunk pc = some (next - pc)
  verifier : op.info.operands = .variable → walkVariablePayloadEnd chunk pc = next

theorem vmReads_width (hlen : op.info.operands.length? = some len) (hretired : op.isRetired = false)
    : (op.vmReads.map VmRead.width).sum = len := by
  revert hlen hretired
  cases op <;> intro hlen hretired <;>
    first
    | (cases hretired; done)
    | (cases hlen; done)
    | (cases hlen; rfl)

theorem disassembleInstruction_fixed (hop : chunk.opcode? pc = some op)
    (hlen : op.info.operands.length? = some len) (hmethod : op ≠ .callMethod) :
    disassembleInstruction chunk pc = pc + (1 + len) := by
  rw [disassembleInstruction, hop]
  revert hlen hmethod
  cases op <;> intro hlen hmethod <;>
    first
    | (cases hlen; done)
    | exact absurd rfl hmethod
    | (cases hlen; rfl)

theorem decoders_agree_define {stop : Nat} (hop : chunk.opcode? pc = some op) (w : Nat)
    (hw : op = .defineGlobal ∧ w = 1 ∨ (op = .defineGlobal16 ∨ op = .defineGlobalSlot) ∧ w = 2)
    (h : DefinePayload chunk (pc + 1 + w) stop) (hin : stop ≤ chunk.count) :
    DecodersAgree chunk pc stop op := by
  have hnot : ∀ fast, ¬ FusedStore chunk fast op stop := by
    rintro fast ⟨hcase, -⟩
    rcases hw with ⟨rfl, -⟩ | ⟨rfl | rfl, -⟩ <;> rcases hcase with hcase | hcase <;> cases hcase
  refine ⟨fun fast => ?_, fun fast e he _ => ?_, fun fast e _ hf => absurd hf (hnot fast),
    fun _ htail => ?_, fun hslot => ?_, fun _ => ?_⟩
  · rw [vmDispatch, hop]
    rcases hw with ⟨rfl, -⟩ | ⟨rfl | rfl, -⟩ <;> rfl
  · rw [vmDispatch, hop] at he
    rcases hw with ⟨rfl, rfl⟩ | ⟨rfl | rfl, rfl⟩
    · cases he
    · cases he
    · cases he
      exact h.handleDefineGlobalSlotEnd
  · rw [disassembleInstruction, hop]
    rcases hw with ⟨rfl, rfl⟩ | ⟨rfl | rfl, rfl⟩
    · exact h.disassembleDefineGlobal hin (.inl rfl)
    · exact h.disassembleDefineGlobal hin (.inr fun hfile => htail ⟨rfl, hfile⟩)
    · exact h.disassembleDefineGlobal hin (.inl rfl)
  · subst hslot
    obtain ⟨-, rfl⟩ := hw.resolve_left fun hcase => nomatch hcase.1
    exact h.defineGlobalSlotPayloadLength rfl hin
  · rw [walkVariablePayloadEnd, hop]
    rcases hw with ⟨rfl, rfl⟩ | ⟨rfl | rfl, rfl⟩
    · exact h.walkDefineGlobalEnd
    · exact h.walkDefineGlobalEnd
    · exact h.walkDefineGlobalEnd

theorem decoders_agree_initArray (hop : chunk.opcode? pc = some op)
    (hinit : op = .initLocalArray ∨ op = .initFieldArray)
    (h : decodeInitArrayLength chunk pc = ⟨true, len⟩) : DecodersAgree chunk pc (pc + len) op := by
  have hlen : len = 3 + arrayTailLength (chunk.u8 (pc + 2)) := by
    unfold decodeInitArrayLength at h
    split at h
    · cases h
    · cases h
      rfl
  rw [arrayTailLength] at hlen
  have hnot : ∀ fast, ¬ FusedStore chunk fast op (pc + len) := by
    rintro fast ⟨hcase, -⟩
    rcases hinit with rfl | rfl <;> rcases hcase with hcase | hcase <;> cases hcase
  refine ⟨fun fast => ?_, fun fast e he _ => ?_, fun fast e _ hf => absurd hf (hnot fast),
    fun _ _ => ?_, fun hslot => ?_, fun _ => ?_⟩
  · rw [vmDispatch, hop]
    rcases hinit with rfl | rfl <;> rfl
  · have hend : e = readBounds (chunk.u8 (pc + 2)) (pc + 1 + 1 + 1) + 1 + 2 := by
      rw [vmDispatch, hop] at he
      rcases hinit with rfl | rfl <;>
      · cases he
        rfl
    rw [hend, readBounds_eq]
    omega
  · have hend : disassembleInstruction chunk pc = pc + 6 + chunk.u8 (pc + 2) * 4 := by
      rw [disassembleInstruction, hop]
      rcases hinit with rfl | rfl <;> rfl
    rw [hend]
    omega
  · rcases hinit with rfl | rfl <;> cases hslot
  · have hend : walkVariablePayloadEnd chunk pc =
        readBounds (chunk.u8 (pc + 2)) (pc + 3) + 1 + 2 := by
      rw [walkVariablePayloadEnd, hop]
      rcases hinit with rfl | rfl <;> rfl
    rw [hend, readBounds_eq]
    omega

theorem vmDispatch_fixed (hop : chunk.opcode? pc = some op)
    (hlen : op.info.operands.length? = some len) (hretired : op.isRetired = false) (fast : Bool) :
    (FusedStore chunk fast op (pc + (1 + len)) →
      vmDispatch chunk fast pc = some (pc + (1 + len) + 2)) ∧
    (¬ FusedStore chunk fast op (pc + (1 + len)) →
      vmDispatch chunk fast pc = some (pc + (1 + len))) := by
  have hip : pc + 1 + (op.vmReads.map VmRead.width).sum = pc + (1 + len) := by
    rw [vmReads_width hlen hretired]
    omega
  have hdispatch : vmDispatch chunk fast pc =
      let ip := pc + 1 + (op.vmReads.map VmRead.width).sum
      if (op = .getLocalAddress ∨ op = .getGslotAddress) ∧ fast = true ∧ ip + 1 < chunk.count ∧
          chunk.opcode? ip = some .swap ∧ chunk.opcode? (ip + 1) = some .setIndirect then
        some (ip + 2)
      else some ip := by
    rw [vmDispatch, hop]
    revert hlen hretired
    cases op <;> intro hlen hretired <;> first | (cases hlen; done) | (cases hretired; done) | rfl
  rw [hdispatch]
  dsimp only
  rw [hip]
  exact ⟨fun hfused => if_pos hfused, fun hnot => if_neg hnot⟩

theorem vmDispatch_retired (hop : chunk.opcode? pc = some op) (hretired : op.isRetired = true)
    (fast : Bool) : vmDispatch chunk fast pc = none := by
  rw [vmDispatch, hop]
  revert hretired
  cases op <;> intro hretired <;> first | (cases hretired; done) | rfl

/-- Every decoder ends a whole instruction where `pscalDecodeInstructionLength` does, but the
disassembler at `CALL_METHOD` and at the file tail of `DEFINE_GLOBAL16`. -/
theorem decoders_agree {chunk : BytecodeChunk} {pc len : Nat} {op : OpCode}
    (hop : chunk.opcode? pc = some op)
    (hdecode : pscalDecodeInstructionLength chunk pc = ⟨true, len⟩)
    (hin : pc + len ≤ chunk.count) : DecodersAgree chunk pc (pc + len) op := by
  have hlt : pc < chunk.count := by
    have := decodeInstructionLength_pos chunk pc
    rw [hdecode] at this
    have hpos : 0 < len := this
    omega
  have hbody := hdecode
  unfold pscalDecodeInstructionLength at hbody
  rw [if_pos hlt, hop] at hbody
  cases hlen : op.info.operands.length? with
  | none =>
    -- the five opcodes with a variable payload
    revert hbody hlen
    cases op <;> intro hbody hlen <;> first | (cases hlen; done) | skip
    · exact decoders_agree_define hop 1 (.inl ⟨rfl, rfl⟩) (definePayload_of_decode hbody) hin
    · exact decoders_agree_define hop 2 (.inr ⟨.inl rfl, rfl⟩) (definePayload_of_decode hbody) hin
    · exact decoders_agree_initArray hop (.inl rfl) hbody
    · exact decoders_agree_initArray hop (.inr rfl) hbody
    · exact decoders_agree_define hop 2 (.inr ⟨.inr rfl, rfl⟩) (definePayload_of_decode hbody) hin
  | some n =>
    have hfixed := decodeInstructionLength_of_fixed hlt hop hlen
    rw [hdecode] at hfixed
    obtain rfl : len = 1 + n := congrArg DecodedLength.length hfixed
    have hvm : ∀ fast stop, vmDispatch chunk fast pc = some stop →
        (FusedStore chunk fast op (pc + (1 + n)) → stop = pc + (1 + n) + 2) ∧
        (¬ FusedStore chunk fast op (pc + (1 + n)) → stop = pc + (1 + n)) := by
      intro fast stop hstop
      cases hretired : op.isRetired with
      | true =>
        rw [vmDispatch_retired hop hretired] at hstop
        cases hstop
      | false =>
        obtain ⟨hfused, hplain⟩ := vmDispatch_fixed hop hlen hretired fast
        refine ⟨fun h => ?_, fun h => ?_⟩
        · rw [hfused h] at hstop
          exact (Option.some.inj hstop).symm
        · rw [hplain h] at hstop
          exact (Option.some.inj hstop).symm
    refine ⟨fun fast => ?_, fun fast stop hstop => (hvm fast stop hstop).2,
      fun fast stop hstop hfused => ⟨(hvm fast stop hstop).1 hfused, ?_, ?_⟩,
      fun hmethod _ => disassembleInstruction_fixed hop hlen hmethod, ?_, ?_⟩
    · cases hretired : op.isRetired with
      | true =>
        rw [vmDispatch_retired hop hretired]
        rfl
      | false =>
        obtain ⟨hfused, hplain⟩ := vmDispatch_fixed hop hlen hretired fast
        by_cases h : FusedStore chunk fast op (pc + (1 + n))
        · rw [hfused h]
          rfl
        · rw [hplain h]
          rfl
    · obtain ⟨-, -, hroom, hswap, -⟩ := hfused
      exact decodeInstructionLength_of_fixed (by omega) hswap rfl
    · obtain ⟨-, -, hroom, -, hset⟩ := hfused
      exact decodeInstructionLength_of_fixed hroom hset rfl
    · rintro rfl
      cases hlen
    · intro hvariable
      rw [hvariable] at hlen
      cases hlen

/-- `GET_LOCAL_ADDRESS 0; SWAP; SET_INDIRECT` -/
def storeChunk : BytecodeChunk := { code := [53, 0, 30, 68] }

theorem decoders_agree_store : DecodersAgree storeChunk 0 (0 + 2) .getLocalAddress :=
  decoders_agree rfl rfl (by decide)

/-- the disassembler ends `CALL_METHOD 0 0` after one byte, and the VM runs a whole store at its
address -/
theorem decoders_differ : (pscalDecodeInstructionLength { code := [87, 0, 0] } 0 = ⟨true, 3⟩ ∧
      disassembleInstruction { code := [87, 0, 0] } 0 = 1) ∧
    (pscalDecodeInstructionLength storeChunk 0 = ⟨true, 2⟩ ∧
      vmDispatch storeChunk true 0 = some 4) :=
  ⟨⟨rfl, rfl⟩, rfl, rfl⟩

end Pscal
