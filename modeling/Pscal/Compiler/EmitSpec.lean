import Mathlib
import Pscal.Compiler.Emit
import Pscal.Compiler.PeepholeCode

/-!
# What a compile keeps

* `Whole chunk`  the code is whole instructions, one after the other;
* `Grown chunk chunk'` what was there is still there;
* `AfterJump chunk a`  a routine can start at `a`;
* `Emitted st`  the invariant, kept by every part (`emit_keeps`) and so by a whole compile
  (`compileProgram_emitted`).
-/

namespace Pscal

open Hoare List Option Function BytecodeChunk

/-! ## appending instructions -/

def Whole (chunk : BytecodeChunk) : Prop :=
  ∀ pc, InstrStart chunk pc →
    ∃ n, pscalDecodeInstructionLength chunk pc = ⟨true, n⟩ ∧ pc + n ≤ chunk.count

variable {chunk : BytecodeChunk} {bytes : List UInt8} {value : Value}

theorem Whole.layout (h : Whole chunk) : Layout chunk := by
  intro pc hpc
  obtain ⟨n, hn, hin⟩ := h pc hpc
  rw [getInstructionLength, hn]
  exact hin

theorem Whole.last (h : Whole chunk) (hpos : 0 < chunk.count) :
    ∃ pc, InstrStart chunk pc ∧ pc + getInstructionLength chunk pc = chunk.count := by
  have hwalk : ∀ room pc, InstrStart chunk pc → chunk.count - pc ≤ room →
      ∃ pc, InstrStart chunk pc ∧ pc + getInstructionLength chunk pc = chunk.count := by
    intro room
    induction room with
    | zero =>
      intro pc hpc hroom
      have hlt := hpc.lt
      omega
    | succ room ih =>
      intro pc hpc hroom
      have hin := h.layout pc hpc
      have hlen : 0 < getInstructionLength chunk pc := decodeInstructionLength_pos chunk pc
      by_cases hend : pc + getInstructionLength chunk pc = chunk.count
      · exact ⟨pc, hpc, hend⟩
      · exact ih _ (.next hpc (by omega)) (by omega)
  exact hwalk chunk.count 0 (.first hpos) (Nat.sub_le _ _)

section
variable (chunk : BytecodeChunk) (bytes : List UInt8)

theorem count_appendBytes : (chunk.appendBytes bytes).count = chunk.count + bytes.length :=
  length_append

theorem byte_appendBytes_old {pc : Nat} (h : pc < chunk.count) :
    (chunk.appendBytes bytes).byte pc = chunk.byte pc := by
  show (chunk.code ++ bytes).getD pc 0 = chunk.code.getD pc 0
  rw [getD_append _ _ _ _ h]

theorem byte_appendBytes_new (i : Nat) :
    (chunk.appendBytes bytes).byte (chunk.count + i) = bytes.getD i 0 := by
  have hle : chunk.code.length ≤ chunk.code.length + i := Nat.le_add_right _ _
  show (chunk.code ++ bytes).getD (chunk.code.length + i) 0 = _
  rw [getD_append_right _ _ _ _ hle, Nat.add_sub_cancel_left]

end

section
variable {chunk : BytecodeChunk} {bytes : List UInt8}

variable {pc : Nat}

theorem decode_appendBytes_old {n : Nat} (h : pscalDecodeInstructionLength chunk pc = ⟨true, n⟩)
    (hin : pc + n ≤ chunk.count) :
    pscalDecodeInstructionLength (chunk.appendBytes bytes) pc = ⟨true, n⟩ := by
  have hcount := count_appendBytes chunk bytes
  exact decodeInstructionLength_congr hin (by omega)
    (fun i hi => byte_appendBytes_old chunk bytes (by omega)) h

theorem decode_appendBytes_new (h : WholeInstruction bytes) :
    pscalDecodeInstructionLength (chunk.appendBytes bytes) chunk.count = ⟨true, bytes.length⟩ := by
  have hcount := count_appendBytes chunk bytes
  refine decodeInstructionLength_congr ?_ (Nat.le_of_eq hcount.symm)
    (fun i _ => ?_) (h : pscalDecodeInstructionLength _ 0 = _)
  · show 0 + bytes.length ≤ bytes.length
    omega
  · rw [byte_appendBytes_new, Nat.zero_add]
    rfl

omit chunk in
theorem WholeInstruction.pos (h : WholeInstruction bytes) : 0 < bytes.length := by
  have hpos := decodeInstructionLength_pos { code := bytes } 0
  rwa [show pscalDecodeInstructionLength { code := bytes } 0 = ⟨true, bytes.length⟩ from h] at hpos

variable (hwhole : Whole chunk) (h : WholeInstruction bytes)
include hwhole

theorem InstrStart.appendBytes (hpc : InstrStart chunk pc) :
    InstrStart (chunk.appendBytes bytes) pc := by
  have hcount := count_appendBytes chunk bytes
  induction hpc with
  | first h0 => exact .first (by omega)
  | next hpc hlt ih =>
    obtain ⟨n, hn, hin⟩ := hwhole _ hpc
    have hlen : getInstructionLength (chunk.appendBytes bytes) _ = n :=
      congrArg DecodedLength.length (decode_appendBytes_old hn hin)
    have hold : getInstructionLength chunk _ = n := congrArg DecodedLength.length hn
    rw [hold] at hlt ⊢
    exact ih.step hlen (by omega)

include h

theorem instrStart_appendBytes_new : InstrStart (chunk.appendBytes bytes) chunk.count := by
  have hcount := count_appendBytes chunk bytes
  have hpos := h.pos
  by_cases hzero : chunk.count = 0
  · rw [hzero]
    exact .first (by omega)
  · obtain ⟨pc, hpc, hend⟩ := hwhole.last (Nat.pos_of_ne_zero hzero)
    obtain ⟨n, hn, hin⟩ := hwhole pc hpc
    have hlen : getInstructionLength (chunk.appendBytes bytes) pc = n :=
      congrArg DecodedLength.length (decode_appendBytes_old hn hin)
    have hold : getInstructionLength chunk pc = n := congrArg DecodedLength.length hn
    rw [← hend, hold]
    exact (hpc.appendBytes hwhole).step hlen (by omega)

theorem instrStart_appendBytes_cases (hpc : InstrStart (chunk.appendBytes bytes) pc) :
    InstrStart chunk pc ∨ pc = chunk.count := by
  have hcount := count_appendBytes chunk bytes
  induction hpc with
  | first _ =>
    by_cases hzero : chunk.count = 0
    · exact .inr hzero.symm
    · exact .inl (.first (Nat.pos_of_ne_zero hzero))
  | @next pc hpc hlt ih =>
    rcases ih with hold | rfl
    · obtain ⟨n, hn, hin⟩ := hwhole pc hold
      have hlen : getInstructionLength (chunk.appendBytes bytes) pc = n :=
        congrArg DecodedLength.length (decode_appendBytes_old hn hin)
      rw [hlen]
      by_cases hend : pc + n = chunk.count
      · exact .inr hend
      · exact .inl (hold.step (congrArg DecodedLength.length hn) (by omega))
    · have hlen : getInstructionLength (chunk.appendBytes bytes) chunk.count = bytes.length :=
        congrArg DecodedLength.length (decode_appendBytes_new h)
      omega

theorem Whole.appendBytes : Whole (chunk.appendBytes bytes) := by
  have hcount := count_appendBytes chunk bytes
  intro pc hpc
  rcases instrStart_appendBytes_cases hwhole h hpc with hold | rfl
  · obtain ⟨n, hn, hin⟩ := hwhole pc hold
    exact ⟨n, decode_appendBytes_old hn hin, by omega⟩
  · exact ⟨bytes.length, decode_appendBytes_new h, by omega⟩

end

/-! ## growth -/

structure Grown (chunk chunk' : BytecodeChunk) : Prop where
  count : chunk.count ≤ chunk'.count
  starts : ∀ pc, InstrStart chunk pc → InstrStart chunk' pc
  bytes : ∀ pc, pc < chunk.count → chunk'.byte pc = chunk.byte pc
  constants : ∀ (i : Nat) (v : Value), chunk.constants[i]? = some v →
    chunk'.constants[i]? = some v

theorem grown_appendBytes (bytes : List UInt8) (hwhole : Whole chunk) :
    Grown chunk (chunk.appendBytes bytes) where
  count := by
    rw [count_appendBytes]
    omega
  starts _ hpc := hpc.appendBytes hwhole
  bytes _ hpc := byte_appendBytes_old chunk bytes hpc
  constants _ _ hv := hv

section
variable {chunk chunk' : BytecodeChunk} (h : Grown chunk chunk')
include h

variable {pc : Nat}

theorem Grown.opcode? (hpc : pc < chunk.count) : chunk'.opcode? pc = chunk.opcode? pc := by
  rw [BytecodeChunk.opcode?, BytecodeChunk.opcode?, h.bytes pc hpc]

theorem Grown.u8 (hpc : pc < chunk.count) : chunk'.u8 pc = chunk.u8 pc :=
  congrArg UInt8.toNat (h.bytes pc hpc)

theorem Grown.i32 (hpc : pc + 3 < chunk.count) : chunk'.i32 pc = chunk.i32 pc := by
  rw [BytecodeChunk.i32, BytecodeChunk.i32, BytecodeChunk.u32, BytecodeChunk.u32,
    u16, u16, u16, u16,
    h.u8 (by omega), h.u8 (by omega), h.u8 (by omega), h.u8 (by omega)]

end

/-! ## the places of addresses -/

/-- the address after a jump, where the code of a routine starts -/
def AfterJump (chunk : BytecodeChunk) (a : Nat) : Prop :=
  ∃ j, InstrStart chunk j ∧ chunk.opcode? j = some .jump ∧ a = j + 5

/-- the value an immediate instruction pushes -/
def immediateAt (chunk : BytecodeChunk) (pc : Nat) : Option Int :=
  match chunk.opcode? pc with
  | some .const0 => some 0
  | some .const1 => some 1
  | some .pushImmediateInt8 =>
    some (if chunk.u8 (pc + 1) < 128 then chunk.u8 (pc + 1) else chunk.u8 (pc + 1) - 256)
  | _ => none

/-- the chunk holds the address `a` at a place -/
def AddressPlace.Holds (chunk : BytecodeChunk) (a : Nat) : AddressPlace → Prop
  | .operand offset => InstrStart chunk offset ∧ chunk.opcode? offset = some .threadCreate ∧
      chunk.i32 (offset + 1) = a
  | .immediate offset => InstrStart chunk offset ∧ immediateAt chunk offset = some (a : Int)
  | .constant index => chunk.constants[index]? = some (.scalar .int32 a)
  | .element index i => ∃ elems, chunk.constants[index]? = some (.array .int32 elems) ∧
      elems[i]? = some (.scalar .int32 a)

theorem Whole.end_le (h : Whole chunk) {pc n : Nat} {op : OpCode} (hpc : InstrStart chunk pc)
    (hop : chunk.opcode? pc = some op) (hn : op.info.operands.length? = some n) :
    pc + 1 + n ≤ chunk.count := by
  have hin := h.layout pc hpc
  rw [getInstructionLength_of_fixed hpc.lt hop hn] at hin
  omega

variable {a : Nat} {st st' : Emitter}

theorem AfterJump.le (h : AfterJump chunk a) (hwhole : Whole chunk) : a ≤ chunk.count := by
  obtain ⟨j, hj, hop, rfl⟩ := h
  have := hwhole.end_le (n := 4) hj hop rfl
  omega

section
variable {chunk chunk' : BytecodeChunk} (h : Grown chunk chunk')
include h

theorem AfterJump.grown {a : Nat} (ha : AfterJump chunk a) : AfterJump chunk' a := by
  obtain ⟨j, hj, hop, rfl⟩ := ha
  exact ⟨j, h.starts j hj, (h.opcode? hj.lt).trans hop, rfl⟩

theorem immediateAt_grown (hwhole : Whole chunk) {pc : Nat} (hpc : InstrStart chunk pc) :
    immediateAt chunk' pc = immediateAt chunk pc := by
  rw [immediateAt, immediateAt, h.opcode? hpc.lt]
  split
  · rfl
  · rfl
  · rename_i hop
    have hend := hwhole.end_le (n := 1) hpc hop rfl
    rw [h.u8 (by omega)]
  · rfl

theorem AddressPlace.Holds.grown (hwhole : Whole chunk) {a : Nat} {place : AddressPlace}
    (hp : place.Holds chunk a) : place.Holds chunk' a := by
  cases place with
  | operand offset =>
    obtain ⟨hstart, hop, ha⟩ := hp
    have hend := hwhole.end_le (n := 4) hstart hop rfl
    exact ⟨h.starts _ hstart, (h.opcode? hstart.lt).trans hop, (h.i32 (by omega)).trans ha⟩
  | immediate offset =>
    obtain ⟨hstart, ha⟩ := hp
    exact ⟨h.starts _ hstart, (immediateAt_grown h hwhole hstart).trans ha⟩
  | constant index => exact h.constants _ _ hp
  | element index element =>
    obtain ⟨elems, harray, ha⟩ := hp
    exact ⟨elems, h.constants _ _ harray, ha⟩

end

/-! ## the invariant -/

/-- the note of a code address agrees with the pool -/
structure EntryHolds (chunk : BytecodeChunk) (literals : List Nat)
    (e : AddressConstantEntry) : Prop where
  original : e.originalAddress ≤ 0 ∨ ∃ a : Nat, e.originalAddress = a ∧ AfterJump chunk a
  pooled : e.elementIndex = none →
    chunk.constants[e.constantIndex]? = some (intConstant e.originalAddress)
  element : ∀ j, e.elementIndex = some j → e.symbolName = none ∧ e.symbolRef = none ∧
    e.constantIndex ∉ literals ∧
    ∃ elems, chunk.constants[e.constantIndex]? = some (.array .int32 elems) ∧
      elems[j]? = some (.scalar .int32 e.originalAddress)

structure Emitted (st : Emitter) : Prop where
  whole : Whole st.chunk
  size : st.chunk.count < 2 ^ 31
  compiled : ∀ r, r ∈ st.compiled → (st.procedures.heap r).isDefined = true ∧
    ∃ a : Nat, (st.procedures.heap r).bytecodeAddress = a ∧ AfterJump st.chunk a
  others : ∀ r, r ∉ st.compiled → (st.procedures.heap r).isDefined = false ∧
    (st.procedures.heap r).bytecodeAddress ≤ 0
  addresses : ∀ p ∈ st.addresses, AfterJump st.chunk p.2 ∧ p.1.Holds st.chunk p.2
  entries : ∀ e ∈ st.entries, EntryHolds st.chunk st.literals e
  literals : ∀ i ∈ st.literals, i < st.chunk.constants.length
  nodup : st.procedures.table.top.Nodup

/-- a procedure table before the compile: no routine has code, and the buckets hold a symbol
once -/
structure Uncompiled (procedures : Procedures) : Prop where
  noCode : ∀ r, (procedures.heap r).isDefined = false ∧ (procedures.heap r).bytecodeAddress ≤ 0
  nodup : procedures.table.top.Nodup

theorem emitted_start {procedures : Procedures} (h : Uncompiled procedures) :
    Emitted { chunk := { code := [] }, procedures := procedures } where
  whole _ hpc := absurd hpc.lt (Nat.not_lt_zero _)
  size := by
    show 0 < 2 ^ 31
    omega
  compiled := nofun
  others r _ := h.noCode r
  addresses := nofun
  entries := nofun
  literals := nofun
  nodup := h.nodup

theorem Emitted.grow (h : Emitted st) (hgrown : Grown st.chunk chunk) (hwhole : Whole chunk)
    (hsize : chunk.count < 2 ^ 31) : Emitted { st with chunk := chunk } where
  whole := hwhole
  size := hsize
  compiled r hr := by
    obtain ⟨hdef, a, ha, hjump⟩ := h.compiled r hr
    exact ⟨hdef, a, ha, hjump.grown hgrown⟩
  others := h.others
  addresses p hp := by
    obtain ⟨hjump, hholds⟩ := h.addresses p hp
    exact ⟨hjump.grown hgrown, hholds.grown hgrown h.whole⟩
  entries e he := by
    obtain ⟨horiginal, hpooled, helement⟩ := h.entries e he
    refine ⟨horiginal.imp_right fun ⟨a, ha, hjump⟩ => ⟨a, ha, hjump.grown hgrown⟩,
      fun hnone => hgrown.constants _ _ (hpooled hnone), fun j hj => ?_⟩
    obtain ⟨hname, href, hlit, elems, harray, helem⟩ := helement j hj
    exact ⟨hname, href, hlit, elems, hgrown.constants _ _ harray, helem⟩
  literals i hi := by
    have hlt := h.literals i hi
    have hv := hgrown.constants i _ (getElem?_eq_getElem hlt)
    exact (List.getElem?_eq_some_iff.mp hv).1
  nodup := h.nodup

theorem Emitted.address (h : Emitted st) (r : SymbolRef) :
    (st.procedures.heap r).bytecodeAddress ≤ 0 ∨
      ∃ a : Nat, (st.procedures.heap r).bytecodeAddress = a ∧ AfterJump st.chunk a := by
  by_cases hr : r ∈ st.compiled
  · exact .inr (h.compiled r hr).2
  · exact .inl (h.others r hr).2

theorem AfterJump.lt_size (h : Emitted st) (ha : AfterJump st.chunk a) :
    a < 2 ^ 31 := Nat.lt_of_le_of_lt (ha.le h.whole) h.size

/-! ## instructions -/

theorem wholeInstruction_of_fixed {o : OpCode} {rest : List UInt8}
    (h : o.info.operands.length? = some rest.length) : WholeInstruction (o.byte :: rest) := by
  have hop : opcode? { code := o.byte :: rest } 0 = some o := o.ofByte_byte
  rw [WholeInstruction, decodeInstructionLength_of_fixed (Nat.succ_pos _) hop h, length_cons,
    Nat.add_comm]

theorem immediateBytes_whole (h : immediateBytes value = some bytes) : WholeInstruction bytes := by
  unfold immediateBytes at h
  split at h
  · split at h
    · cases h
      exact wholeInstruction_of_fixed rfl
    · split at h
      · cases h
        exact wholeInstruction_of_fixed rfl
      · split at h
        · cases h
          exact wholeInstruction_of_fixed rfl
        · cases h
  · cases h
    split
    · exact wholeInstruction_of_fixed rfl
    · exact wholeInstruction_of_fixed rfl
  · cases h

theorem indexBytes_whole {index : Nat} (h : indexBytes index = some bytes) :
    WholeInstruction bytes := by
  unfold indexBytes at h
  split at h
  · cases h
    exact wholeInstruction_of_fixed rfl
  · split at h
    · cases h
      exact wholeInstruction_of_fixed rfl
    · cases h

theorem writeBytes_run {u : Unit} (h : writeBytes bytes st = some (u, st')) :
    st.chunk.count + bytes.length < 2 ^ 31 ∧
      st' = { st with chunk := st.chunk.appendBytes bytes } := by
  unfold writeBytes at h
  split at h
  · rename_i hsize
    cases h
    exact ⟨hsize, rfl⟩
  · cases h

theorem writeBytes_spec (h : WholeInstruction bytes) :
    Holds Emitted (writeBytes bytes) fun _ => Emitted := by
  intro st u st' hst hrun
  obtain ⟨hsize, rfl⟩ := writeBytes_run hrun
  refine hst.grow (grown_appendBytes bytes hst.whole) (hst.whole.appendBytes h) ?_
  rwa [count_appendBytes]

theorem emitConstantNoImmediate_spec (index : Nat) :
    Holds Emitted (emitConstantNoImmediate index) fun _ => Emitted := by
  intro st u st' hst hrun
  unfold emitConstantNoImmediate at hrun
  split at hrun
  · rename_i bytes hbytes
    exact writeBytes_spec (indexBytes_whole hbytes) st u st' hst hrun
  · cases hrun

theorem emitConstant_spec (index : Nat) : Holds Emitted (emitConstant index) fun _ => Emitted := by
  intro st u st' hst hrun
  unfold emitConstant at hrun
  split at hrun
  · rename_i bytes hbytes
    obtain ⟨value, -, hvalue⟩ := bind_eq_some_iff.mp hbytes
    exact writeBytes_spec (immediateBytes_whole hvalue) st u st' hst hrun
  · exact emitConstantNoImmediate_spec index st u st' hst hrun

theorem emitInstruction_spec (bytes : List UInt8) :
    Holds Emitted (emitInstruction bytes) fun _ => Emitted := by
  intro st u st' hst hrun
  unfold emitInstruction at hrun
  split at hrun
  · rename_i hwhole
    exact writeBytes_spec hwhole.1 st u st' hst hrun
  · cases hrun

/-! ## constants -/

/-- the index `addConstant` gives for `value` -/
structure Added (value : Value) (index : Nat) (st : Emitter) : Prop where
  found : ∃ v, st.chunk.constants[index]? = some v ∧ (v = value ∨ sameConstant v value = true)
  free : ∀ e ∈ st.entries, ∀ j, e.elementIndex = some j → e.constantIndex ≠ index

theorem sameConstant_int {v : Value} {n : Int} (h : sameConstant v (intConstant n) = true) :
    v = intConstant n := by
  unfold intConstant at h ⊢
  split
  · rename_i hn
    rw [if_pos hn] at h
    unfold sameConstant at h
    split at h
    · rename_i heq
      cases heq
      rw [decide_eq_true_eq] at h
      rw [h]
    · rename_i heq
      cases heq
    · rename_i heq
      cases heq
    · rename_i heq
      cases heq
    · cases h
  · rename_i hn
    rw [if_neg hn] at h
    unfold sameConstant at h
    split at h
    · rename_i heq
      cases heq
    · rename_i heq
      cases heq
    · rename_i heq
      cases heq
    · rename_i heq
      cases heq
    · cases h

theorem sameConstant_array {v : Value} {elem : VarType} {elems : List Value}
    (h : sameConstant v value = true) : v ≠ .array elem elems := by
  rintro rfl
  cases h

theorem addConstant_run {index : Nat} (h : addConstant value st = some (index, st')) :
    (st' = st ∧ ∃ v, st.chunk.constants[index]? = some v ∧ sameConstant v value = true) ∨
      index = st.chunk.constants.length ∧ st' = { st with chunk :=
        { st.chunk with constants := st.chunk.constants ++ [value] } } := by
  unfold addConstant addConstantToChunk at h
  split at h
  rename_i chunk i hfind
  cases h
  split at hfind
  · rename_i i' hsome
    cases hfind
    obtain ⟨hlt, hsame, -⟩ := findIdx?_eq_some_iff_getElem.mp hsome
    exact .inl ⟨rfl, _, getElem?_eq_getElem hlt, hsame⟩
  · cases hfind
    exact .inr ⟨rfl, rfl⟩

section
variable {chunk : BytecodeChunk} (constants : List Value)

theorem instrStart_constants {pc : Nat} :
    InstrStart { chunk with constants := constants } pc ↔ InstrStart chunk pc := by
  constructor
  · intro h
    induction h with
    | first h0 => exact .first h0
    | next _ hlt ih => exact .next ih hlt
  · intro h
    induction h with
    | first h0 => exact .first h0
    | next _ hlt ih =>
      exact @InstrStart.next { chunk with constants := constants } _ ih hlt

theorem whole_constants (h : Whole chunk) : Whole { chunk with constants := constants } :=
  fun pc hpc => h pc ((instrStart_constants constants).mp hpc)

end

theorem grown_constants {chunk : BytecodeChunk} (values : List Value) :
    Grown chunk { chunk with constants := chunk.constants ++ values } where
  count := Nat.le_refl _
  starts _ hpc := (instrStart_constants _).mpr hpc
  bytes _ _ := rfl
  constants i v hv := by
    have hlt := (List.getElem?_eq_some_iff.mp hv).1
    exact (getElem?_append_left hlt).trans hv

theorem addConstant_spec (value : Value) :
    Holds Emitted (addConstant value) fun index st => Emitted st ∧ Added value index st := by
  intro st index st' hst hrun
  rcases addConstant_run hrun with ⟨rfl, v, hv, hsame⟩ | ⟨rfl, rfl⟩
  · refine ⟨hst, ⟨v, hv, .inr hsame⟩, fun e he j hj heq => ?_⟩
    obtain ⟨-, -, -, elems, harray, -⟩ := (hst.entries e he).element j hj
    rw [heq, hv] at harray
    exact sameConstant_array hsame (some.inj harray)
  · have hgrown := @grown_constants st.chunk [value]
    refine ⟨hst.grow hgrown (whole_constants _ hst.whole) hst.size,
      ⟨value, getElem?_concat_length, .inl rfl⟩, fun e he j hj heq => ?_⟩
    obtain ⟨-, -, -, elems, harray, -⟩ := (hst.entries e he).element j hj
    have hlt := (List.getElem?_eq_some_iff.mp harray).1
    omega

theorem noteLiteral_spec (value : Value) (index : Nat) :
    Holds (fun st => Emitted st ∧ Added value index st) (noteLiteral index) fun _ => Emitted := by
  rintro st u st' ⟨hst, ⟨v, hv, -⟩, hfree⟩ hrun
  cases hrun
  refine { hst with entries := fun e he => ?_, literals := fun i hi => ?_ }
  · obtain ⟨horiginal, hpooled, helement⟩ := hst.entries e he
    refine ⟨horiginal, hpooled, fun j hj => ?_⟩
    obtain ⟨hname, href, hlit, harray⟩ := helement j hj
    refine ⟨hname, href, fun hmem => ?_, harray⟩
    rcases mem_cons.mp hmem with heq | hmem
    · exact hfree e he j hj heq
    · exact hlit hmem
  · rcases mem_cons.mp hi with rfl | hi
    · exact (List.getElem?_eq_some_iff.mp hv).1
    · exact hst.literals i hi

theorem emitLiteral_spec (value : Value) : Holds Emitted (emitLiteral value) fun _ => Emitted :=
  (addConstant_spec value).bind fun index =>
    (noteLiteral_spec value index).bind fun _ => .pure index fun _ h => h

/-! ## addresses -/

theorem noteAddress_keeps {place : AddressPlace} {r : SymbolRef} {u : Unit} (hst : Emitted st)
    (hplace : ∀ a : Nat, (st.procedures.heap r).bytecodeAddress = a → AfterJump st.chunk a →
      place.Holds st.chunk a) (hrun : noteAddress place r st = some (u, st')) : Emitted st' := by
  unfold noteAddress at hrun
  split at hrun
  · rename_i hr
    cases hrun
    refine { hst with addresses := fun p hp => ?_ }
    rcases mem_cons.mp hp with rfl | hp
    · obtain ⟨-, a, ha, hjump⟩ := hst.compiled r hr
      have hnat : (st.procedures.heap r).bytecodeAddress.toNat = a := by
        rw [ha]
        rfl
      show AfterJump _ (st.procedures.heap r).bytecodeAddress.toNat ∧ _
      rw [hnat]
      exact ⟨hjump, hplace a ha hjump⟩
    · exact hst.addresses p hp
  · cases hrun
    exact hst

/-- the pool holds the address of `r` at `index` -/
structure Pooled (r : SymbolRef) (psym : Symbol) (index : Nat) (st : Emitter) : Prop where
  emitted : Emitted st
  symbol : psym = st.procedures.heap r
  value : st.chunk.constants[index]? = some (intConstant psym.bytecodeAddress)

theorem symbolAt_spec (r : SymbolRef) :
    Holds Emitted (symbolAt r) fun psym st => Emitted st ∧ psym = st.procedures.heap r := by
  intro st psym st' hst hrun
  cases hrun
  exact ⟨hst, rfl⟩

theorem addAddress_spec (r : SymbolRef) (psym : Symbol) :
    Holds (fun st => Emitted st ∧ psym = st.procedures.heap r) (addIntConstant psym.bytecodeAddress)
      fun index => Pooled r psym index := by
  rintro st index st' ⟨hst, hsym⟩ hrun
  obtain ⟨hst', ⟨v, hv, hsame⟩, -⟩ := addConstant_spec _ st index st' hst hrun
  have hvalue : v = intConstant psym.bytecodeAddress := hsame.elim id sameConstant_int
  rw [hvalue] at hv
  refine ⟨hst', ?_, hv⟩
  rcases addConstant_run hrun with ⟨rfl, -⟩ | ⟨-, rfl⟩
  · exact hsym
  · exact hsym

theorem record_spec (r : SymbolRef) (psym : Symbol) (index : Nat) (name : Option String)
    (ref : Option SymbolRef) : Holds (Pooled r psym index)
      (recordAddressConstantEntry ⟨index, psym.bytecodeAddress, none, name, ref⟩)
      fun _ => Pooled r psym index := by
  rintro st u st' ⟨hst, hsym, hv⟩ hrun
  cases hrun
  refine ⟨{ hst with entries := fun e he => ?_ }, hsym, hv⟩
  rcases mem_append.mp he with he | he
  · obtain ⟨horiginal, hpooled, helement⟩ := hst.entries e he
    exact ⟨horiginal, hpooled, helement⟩
  · cases mem_singleton.mp he
    refine ⟨?_, fun _ => hv, nofun⟩
    rw [hsym]
    exact hst.address r

theorem noteConstant_spec (r : SymbolRef) (psym : Symbol) (index : Nat) :
    Holds (Pooled r psym index) (noteAddress (.constant index) r)
      fun _ => Pooled r psym index := by
  rintro st u st' ⟨hst, hsym, hv⟩ hrun
  have hplace : ∀ a : Nat, (st.procedures.heap r).bytecodeAddress = a →
      AfterJump st.chunk a → (AddressPlace.constant index).Holds st.chunk a := by
    intro a ha hjump
    have hlt := hjump.lt_size hst
    rw [hsym, ha, intConstant, if_pos (by omega)] at hv
    exact hv
  have hst' := noteAddress_keeps hst hplace hrun
  unfold noteAddress at hrun
  split at hrun
  · cases hrun
    exact ⟨hst', hsym, hv⟩
  · cases hrun
    exact ⟨hst', hsym, hv⟩

theorem immediateAt_appendBytes (h : immediateBytes (.scalar .int32 a) = some bytes) :
    immediateAt (chunk.appendBytes bytes) chunk.count = some (a : Int) := by
  have hbyte := byte_appendBytes_new chunk bytes
  have hop : ∀ op rest, bytes = OpCode.byte op :: rest →
      (chunk.appendBytes bytes).opcode? chunk.count = some op := by
    rintro op rest rfl
    rw [opcode?, ← Nat.add_zero chunk.count, hbyte]
    exact op.ofByte_byte
  unfold immediateBytes at h
  dsimp only at h
  rw [immediateAt]
  split at h
  · rename_i hzero
    cases h
    rw [hop .const0 [] rfl, hzero]
  · split at h
    · rename_i hone
      cases h
      rw [hop .const1 [] rfl, hone]
    · split at h
      · rename_i hrange
        cases h
        have hu8 : (chunk.appendBytes [OpCode.pushImmediateInt8.byte,
            UInt8.ofNat ((a : Int) % 256).toNat]).u8 (chunk.count + 1) = a := by
          rw [u8, hbyte]
          show (UInt8.ofNat ((a : Int) % 256).toNat).toNat = a
          rw [UInt8.toNat_ofNat']
          omega
        rw [hop .pushImmediateInt8 _ rfl]
        dsimp only
        rw [hu8, if_pos (by omega)]
      · cases h

theorem emitAddress_spec (r : SymbolRef) (psym : Symbol) (index : Nat) :
    Holds (Pooled r psym index) (emitAddress index r) fun _ => Emitted := by
  rintro st u st' ⟨hst, hsym, hv⟩ hrun
  unfold emitAddress at hrun
  rw [hv, bind_some] at hrun
  split at hrun
  · rename_i bytes hbytes
    have hwhole := immediateBytes_whole hbytes
    obtain ⟨u₁, st₁, hwrite, hnote⟩ := bind_run hrun
    have hst₁ := writeBytes_spec hwhole st u₁ st₁ hst hwrite
    obtain ⟨-, rfl⟩ := writeBytes_run hwrite
    refine noteAddress_keeps hst₁ (fun a ha hjump => ?_) hnote
    have hlt := hjump.lt_size hst₁
    refine ⟨instrStart_appendBytes_new hst.whole hwhole, immediateAt_appendBytes ?_⟩
    have haddr : psym.bytecodeAddress = a := hsym ▸ ha
    rw [← hbytes, haddr, intConstant, if_pos (by omega)]
  · exact emitConstantNoImmediate_spec index st u st' hst hrun

theorem emitAddressConstant_spec (r : SymbolRef) :
    Holds Emitted (emitAddressConstant r) fun _ => Emitted :=
  (symbolAt_spec r).bind fun psym => (addAddress_spec r psym).bind fun index =>
    (record_spec r psym index none none).bind fun _ =>
      (noteConstant_spec r psym index).bind fun _ => emitAddress_spec r psym index

theorem emitProcedureReferenceLiteral_spec (r : SymbolRef) :
    Holds Emitted (emitProcedureReferenceLiteral r) fun _ => Emitted :=
  (symbolAt_spec r).bind fun psym => (addAddress_spec r psym).bind fun index =>
    (record_spec r psym index (some psym.name) (some r)).bind fun _ =>
      (noteConstant_spec r psym index).bind fun _ =>
        (emitConstantNoImmediate_spec index).weaken (fun _ h => h.emitted) fun _ _ h => h

theorem emitClosureLiteral_spec (r : SymbolRef) :
    Holds Emitted (emitClosureLiteral r) fun _ => Emitted :=
  (symbolAt_spec r).bind fun _ =>
    ((emitLiteral_spec _).weaken (fun _ h => h.1) fun _ _ h => h).bind fun index =>
      (emitConstant_spec index).bind fun _ => (emitAddressConstant_spec r).bind fun _ =>
        writeBytes_spec (wholeInstruction_of_fixed rfl)

theorem appendBytes_int32 {chunk : BytecodeChunk} {op : OpCode} {v : Int} (hlo : -2 ^ 31 ≤ v)
    (hhi : v < 2 ^ 31) :
    (chunk.appendBytes (op.byte :: int32Bytes v)).opcode? chunk.count = some op ∧
      (chunk.appendBytes (op.byte :: int32Bytes v)).i32 (chunk.count + 1) = v := by
  constructor
  · rw [opcode?, ← Nat.add_zero chunk.count, byte_appendBytes_new]
    exact op.ofByte_byte
  · refine i32_of_int32Bytes (fun i hi => ?_) hlo hhi
    show (chunk.code ++ op.byte :: int32Bytes v)[chunk.code.length + 1 + i]? = _
    rw [getElem?_append_right (by omega),
      show chunk.code.length + 1 + i - chunk.code.length = i + 1 by omega,
      getElem?_cons_succ]

theorem emitThreadCreate_spec (r : SymbolRef) :
    Holds Emitted (emitThreadCreate r) fun _ => Emitted := by
  intro st u st' hst hrun
  unfold emitThreadCreate at hrun
  dsimp only at hrun
  split at hrun
  · have hwhole : WholeInstruction
        (OpCode.threadCreate.byte :: int32Bytes (st.procedures.heap r).bytecodeAddress) :=
      wholeInstruction_of_fixed rfl
    obtain ⟨u₁, st₁, hwrite, hnote⟩ := bind_run hrun
    have hst₁ := writeBytes_spec hwhole st u₁ st₁ hst hwrite
    obtain ⟨-, rfl⟩ := writeBytes_run hwrite
    refine noteAddress_keeps hst₁ (fun a ha hjump => ?_) hnote
    have hlt := hjump.lt_size hst₁
    have haddr : (st.procedures.heap r).bytecodeAddress = a := ha
    obtain ⟨hop, hoperand⟩ := @appendBytes_int32 st.chunk .threadCreate
      (st.procedures.heap r).bytecodeAddress (by omega) (by omega)
    exact ⟨instrStart_appendBytes_new hst.whole hwhole, hop, hoperand.trans haddr⟩
  · cases hrun

/-! ## v-tables -/

/-- the methods of a class from slot `j` on stand in the pooled table -/
def TableRest (heap : SymbolRef → Symbol) (index j : Nat) (methods : List (Option SymbolRef))
    (st : Emitter) : Prop :=
  st.procedures.heap = heap ∧ index ∉ st.literals ∧
    ∃ elems, st.chunk.constants[index]? = some (.array .int32 elems) ∧
      ∀ i r, methods[i]? = some (some r) →
        (∃ a : Nat, (heap r).bytecodeAddress = a ∧ AfterJump st.chunk a) ∧
          elems[j + i]? = some (.scalar .int32 (heap r).bytecodeAddress)

theorem TableRest.tail {heap : SymbolRef → Symbol} {index j : Nat} {method : Option SymbolRef}
    {methods : List (Option SymbolRef)} {st : Emitter}
    (h : TableRest heap index j (method :: methods) st) :
    TableRest heap index (j + 1) methods st := by
  obtain ⟨hheap, hlit, elems, harray, helems⟩ := h
  refine ⟨hheap, hlit, elems, harray, fun i r hi => ?_⟩
  obtain ⟨haddr, helem⟩ := helems (i + 1) r hi
  rw [Nat.add_assoc, Nat.add_comm 1 i]
  exact ⟨haddr, helem⟩

theorem recordVTable_spec (index : Nat) (heap : SymbolRef → Symbol)
    (methods : List (Option SymbolRef)) (j : Nat) :
    Holds (fun st => Emitted st ∧ TableRest heap index j methods st)
      (recordVTable index heap j methods) fun _ => Emitted := by
  induction methods generalizing j with
  | nil => exact .pure _ fun _ h => h.1
  | cons method methods ih =>
    cases method with
    | none => exact (ih (j + 1)).weaken (fun st h => ⟨h.1, h.2.tail⟩) fun _ _ h => h
    | some r =>
      intro st u st' h hrun
      obtain ⟨hst, htable⟩ := h
      obtain ⟨hheap, hlit, elems, harray, helems⟩ := htable
      obtain ⟨⟨a, ha, hjump⟩, helem⟩ := helems 0 r rfl
      obtain ⟨u₁, st₁, hrecord, hrest⟩ := bind_run hrun
      obtain ⟨u₂, st₂, hnote, htail⟩ := bind_run hrest
      cases hrecord
      have hst₁ : Emitted { st with entries := st.entries ++
          [{ constantIndex := index, originalAddress := (heap r).bytecodeAddress,
             elementIndex := some j }] } := by
        refine { hst with entries := fun e he => ?_ }
        rcases mem_append.mp he with he | he
        · exact hst.entries e he
        · cases mem_singleton.mp he
          refine ⟨.inr ⟨a, ha, hjump⟩, nofun, fun j' hj' => ?_⟩
          cases hj'
          exact ⟨rfl, rfl, hlit, elems, harray, helem⟩
      have hst₂ := noteAddress_keeps hst₁ (fun a' ha' _ => ?_) hnote
      · refine ih (j + 1) st₂ _ st' ⟨hst₂, @TableRest.tail _ _ _ (some r) _ _ ?_⟩ htail
        unfold noteAddress at hnote
        split at hnote
        · cases hnote
          exact ⟨hheap, hlit, elems, harray, helems⟩
        · cases hnote
          exact ⟨hheap, hlit, elems, harray, helems⟩
      · refine ⟨elems, harray, ?_⟩
        have haddr : (heap r).bytecodeAddress = a' := hheap ▸ ha'
        rw [← haddr]
        exact helem

theorem emitVTable_spec (methods : List (Option SymbolRef)) :
    Holds Emitted (emitVTable methods) fun _ => Emitted := by
  intro st u st' hst hrun
  unfold emitVTable at hrun
  dsimp only at hrun
  split at hrun
  · rename_i hready
    obtain ⟨cidx, st₁, hadd, hrest⟩ := bind_run hrun
    obtain ⟨u₂, st₂, hrecord, hemit⟩ := bind_run hrest
    have hst₁ := (addConstant_spec _ st cidx st₁ hst hadd).1
    have hst₂ := recordVTable_spec cidx st.procedures.heap methods 0 st₁ u₂ st₂ ⟨hst₁, ?_⟩ hrecord
    · exact emitConstant_spec cidx st₂ u st' hst₂ hemit
    · rcases addConstant_run hadd with ⟨-, v, -, hsame⟩ | ⟨rfl, rfl⟩
      · unfold vtableConstant sameConstant at hsame
        split at hsame <;> contradiction
      · refine ⟨rfl, fun hmem => ?_, _, getElem?_concat_length, fun i r hi => ?_⟩
        · exact Nat.lt_irrefl _ (hst.literals _ hmem)
        · have hpos := hready.2 r (mem_filterMap.mpr ⟨some r, mem_of_getElem? hi, rfl⟩)
          obtain ⟨a, ha, hjump⟩ := (hst.address r).resolve_left (by omega)
          have hlt := hjump.lt_size hst
          refine ⟨⟨a, ha, hjump.grown (@grown_constants st.chunk _)⟩, ?_⟩
          rw [Nat.zero_add, getElem?_map, hi, map_some]
          show some (Value.scalar .int32 (setIntBits .int32 (st.procedures.heap r).bytecodeAddress)) =
            _
          rw [setIntBits, show ((st.procedures.heap r).bytecodeAddress + 2 ^ 31) % 2 ^ 32 - 2 ^ 31 =
            (st.procedures.heap r).bytecodeAddress by omega]
  · cases hrun
    exact hst

/-! ## routines -/

theorem Emitted.define (hst : Emitted st) (r : SymbolRef) {s : Symbol} (hdef : s.isDefined = true)
    (hjump : ∃ a : Nat, s.bytecodeAddress = a ∧ AfterJump st.chunk a) : Emitted { st with
      procedures := { st.procedures with heap := update st.procedures.heap r s }
      compiled := r :: st.compiled } := by
  refine { hst with compiled := fun r' hr' => ?_, others := fun r' hr' => ?_ }
  · show (update st.procedures.heap r s r').isDefined = true ∧
      ∃ a : Nat, (update st.procedures.heap r s r').bytecodeAddress = a ∧ _
    by_cases he : r' = r
    · rw [he, update_self]
      exact ⟨hdef, hjump⟩
    · rw [update_of_ne he]
      exact hst.compiled r' ((mem_cons.mp hr').resolve_left he)
  · show (update st.procedures.heap r s r').isDefined = false ∧
      (update st.procedures.heap r s r').bytecodeAddress ≤ 0
    rw [mem_cons, not_or] at hr'
    rw [update_of_ne hr'.1]
    exact hst.others r' hr'.2

theorem beginRoutine_spec (r : SymbolRef) (skip : Int) (hasBody : Bool) :
    Holds Emitted (beginRoutine r skip hasBody) fun _ => Emitted := by
  intro st u st' hst hrun
  obtain ⟨u₁, st₁, hwrite, hdefine⟩ := bind_run hrun
  have hwhole : WholeInstruction (OpCode.jump.byte :: int32Bytes skip) :=
    wholeInstruction_of_fixed rfl
  have hst₁ := writeBytes_spec hwhole st u₁ st₁ hst hwrite
  obtain ⟨-, rfl⟩ := writeBytes_run hwrite
  cases hdefine
  refine hst₁.define r rfl ⟨_, rfl, st.chunk.count,
    instrStart_appendBytes_new hst.whole hwhole, ?_, count_appendBytes _ _⟩
  show (st.chunk.appendBytes _).opcode? _ = _
  rw [opcode?, ← Nat.add_zero st.chunk.count, byte_appendBytes_new]
  exact OpCode.jump.ofByte_byte

theorem mirrorRoutine_spec (source target : SymbolRef) :
    Holds Emitted (mirrorRoutine source target) fun _ => Emitted := by
  intro st u st' hst hrun
  unfold mirrorRoutine at hrun
  split at hrun
  · rename_i hsource
    cases hrun
    obtain ⟨hdef, hjump⟩ := hst.compiled source hsource
    exact hst.define target hdef hjump
  · cases hrun
    exact hst

/-! ## a compile -/

theorem emit_keeps (part : Emission) : Holds Emitted (emit part) fun _ => Emitted := by
  cases part with
  | instruction bytes => exact emitInstruction_spec bytes
  | literal value => exact (emitLiteral_spec value).bind fun _ => .pure _ fun _ h => h
  | pushLiteral value => exact (emitLiteral_spec value).bind emitConstant_spec
  | routine r skip hasBody => exact beginRoutine_spec r skip hasBody
  | mirror source target => exact mirrorRoutine_spec source target
  | closureLiteral r => exact emitClosureLiteral_spec r
  | referenceLiteral r => exact emitProcedureReferenceLiteral_spec r
  | spawnAddress r => exact emitAddressConstant_spec r
  | threadCreate r => exact emitThreadCreate_spec r
  | vtable methods => exact emitVTable_spec methods
  | unitStart =>
    intro st u st' hst hrun
    cases hrun
    exact { hst with entries := nofun }

theorem emitProgram_spec (parts : List Emission) :
    Holds Emitted (emitProgram parts) fun _ => Emitted :=
  (Holds.forM parts fun part _ => emit_keeps part).bind fun _ =>
    writeBytes_spec (wholeInstruction_of_fixed rfl)

theorem compileProgram_emitted {procedures : Procedures} {parts : List Emission}
    (hstart : Uncompiled procedures) (h : compileProgram procedures parts = some st) :
    Emitted st := by
  obtain ⟨⟨u, st'⟩, hrun, rfl⟩ := map_eq_some_iff.mp h
  exact emitProgram_spec parts _ u st' (emitted_start hstart) hrun

end Pscal
