import Pscal.Bytecode.Stream
import Pscal.Lib.Except
import Pscal.Verify.Check

/-!
# The verifier's linear passes

`verifyInstructionStream` accepts exactly a stream of whole instructions and lists their
offsets; `verifyOperands` accepts an instruction only when every table entry it names exists.
-/

namespace Pscal

open BytecodeChunk List Checks

/-! ## pass 1 -/

variable {pc idx : Nat} {ctx : VCtx} {u : Unit} {what : String}

variable {chunk : BytecodeChunk} {name : String}

theorem instructionStreamFrom_succ {fuel : Nat} {l : List Nat}
    (h : instructionStreamFrom chunk (fuel + 1) pc = .ok l) (hpc : pc < chunk.count) :
    WholeAt chunk pc ∧ ∃ rest, l = pc :: rest ∧
      instructionStreamFrom chunk fuel (pc + getInstructionLength chunk pc) = .ok rest := by
  rw [instructionStreamFrom, if_pos hpc] at h
  cases hinfo : pscalOpcodeInfo (chunk.byte pc) with
  | none => rw [hinfo] at h; simp at h
  | some info =>
    rw [hinfo] at h
    obtain ⟨hok, h⟩ := ite_error_ok.mp h
    obtain ⟨hin, h⟩ := ite_error_ok.mp h
    obtain ⟨rest, hrest, hl⟩ := bind_ok.mp h
    obtain ⟨op, hop, _⟩ := (pscalOpcodeInfo_eq_some _ _).mp hinfo
    exact ⟨⟨⟨op, hop⟩, by simpa using hok, Nat.le_of_not_lt hin⟩, rest,
      (pure_ok.mp hl).symm, hrest⟩

theorem instructionStreamFrom_end {fuel : Nat} {l : List Nat}
    (h : instructionStreamFrom chunk fuel pc = .ok l) (hpc : ¬ pc < chunk.count) : l = [] := by
  cases fuel with
  | zero => simpa [instructionStreamFrom] using h.symm
  | succ fuel => simpa [instructionStreamFrom, hpc] using h.symm

theorem instructionStreamFrom_sound (fuel pc : Nat) (l : List Nat)
    (h : instructionStreamFrom chunk fuel pc = .ok l) (hpc : pc < chunk.count → InstrStart chunk pc)
    : ∀ q ∈ l, InstrStart chunk q ∧ WholeAt chunk q := by
  induction fuel generalizing pc l with
  | zero =>
    have e : l = [] := by simpa [instructionStreamFrom] using h.symm
    simp [e]
  | succ fuel ih =>
    by_cases hlt : pc < chunk.count
    · obtain ⟨hw, rest, rfl, hrest⟩ := instructionStreamFrom_succ h hlt
      intro q hq
      rcases mem_cons.mp hq with rfl | hq
      · exact ⟨hpc hlt, hw⟩
      · exact ih _ rest hrest (fun hn => .next (hpc hlt) hn) q hq
    · simp [instructionStreamFrom_end h hlt]

/-- the list starts at `pc` and holds the next offset of each of its offsets; the fuel covers
the bytes that are left, since every length is positive -/
theorem instructionStreamFrom_closed (fuel pc : Nat) (l : List Nat)
    (h : instructionStreamFrom chunk fuel pc = .ok l) (hfuel : chunk.count - pc ≤ fuel) :
    (pc < chunk.count → pc ∈ l) ∧
      ∀ q ∈ l, q + getInstructionLength chunk q < chunk.count →
        q + getInstructionLength chunk q ∈ l := by
  induction fuel generalizing pc l with
  | zero =>
    have hge : ¬ pc < chunk.count := by omega
    simp [instructionStreamFrom_end h hge, hge]
  | succ fuel ih =>
    by_cases hlt : pc < chunk.count
    · obtain ⟨_, rest, rfl, hrest⟩ := instructionStreamFrom_succ h hlt
      have hpos : 0 < getInstructionLength chunk pc := decodeInstructionLength_pos chunk pc
      obtain ⟨hhead, htail⟩ := ih _ rest hrest (by omega)
      refine ⟨fun _ => mem_cons_self, fun q hq hn => ?_⟩
      rcases mem_cons.mp hq with rfl | hq
      · exact mem_cons_of_mem _ (hhead hn)
      · exact mem_cons_of_mem _ (htail q hq hn)
    · simp [instructionStreamFrom_end h hlt, hlt]

theorem verifyInstructionStream_mem {starts : List Nat}
    (h : verifyInstructionStream chunk = .ok starts) (pc : Nat) :
    pc ∈ starts ↔ InstrStart chunk pc := by
  constructor
  · intro hpc
    exact (instructionStreamFrom_sound _ 0 starts h (fun h0 => .first h0) pc hpc).1
  · intro hpc
    obtain ⟨hhead, htail⟩ := instructionStreamFrom_closed _ 0 starts h (by omega)
    induction hpc with
    | first h0 => exact hhead h0
    | next _ hlt ih => exact htail _ ih hlt

theorem verifyInstructionStream_whole {starts : List Nat}
    (h : verifyInstructionStream chunk = .ok starts) (hpc : InstrStart chunk pc) :
    WholeAt chunk pc :=
  (instructionStreamFrom_sound _ 0 starts h (fun h0 => .first h0) pc
    ((verifyInstructionStream_mem h pc).mpr hpc)).2

/-- a context whose boundary map is that of its chunk -/
structure VCtx.Scanned (ctx : VCtx) : Prop where
  stream : verifyInstructionStream ctx.chunk = .ok ctx.starts

section
variable {ctx : VCtx} (hs : ctx.Scanned)
include hs

theorem boundary_iff (pc : Nat) : ctx.boundary pc = true ↔ InstrStart ctx.chunk pc := by
  rw [VCtx.boundary, contains_iff_mem]
  exact verifyInstructionStream_mem hs.stream pc

theorem boundary_int {t : Int} (h : ¬ (t < 0 ∨ (ctx.chunk.count : Int) ≤ t ∨
    ctx.boundary t.toNat = false)) : InstrStart ctx.chunk t.toNat ∧ t = (t.toNat : Int) := by
  push Not at h
  obtain ⟨h0, _, hb⟩ := h
  exact ⟨(boundary_iff hs _).mp (by simpa using hb), (Int.toNat_of_nonneg h0).symm⟩

end

/-! ## pass 2 -/

def InTables (ctx : VCtx) (refs : List TableRef) : Prop :=
  ∀ r ∈ refs, r.InTable ctx.chunk hostFnCount

theorem InTables_nil (ctx : VCtx) : InTables ctx [] := by simp [InTables]

theorem InTables_cons {r : TableRef} {refs : List TableRef} :
    InTables ctx (r :: refs) ↔ r.InTable ctx.chunk hostFnCount ∧ InTables ctx refs := by
  simp [InTables]

theorem InTables_append {a b : List TableRef} :
    InTables ctx (a ++ b) ↔ InTables ctx a ∧ InTables ctx b := by
  simp only [InTables, mem_append, or_imp, forall_and]

theorem checkConstIndex_ok :
    checkConstIndex ctx idx pc what = .ok u ↔ idx < ctx.chunk.constants.length := by
  rw [checkConstIndex, ite_error_ok]
  simp

theorem checkCacheIndex_ok :
    checkCacheIndex ctx idx pc what = .ok u ↔ idx < ctx.chunk.cacheCount := by
  rw [checkCacheIndex, ite_error_ok]
  simp

theorem checkSlotIndex_ok :
    checkSlotIndex ctx idx pc what = .ok u ↔ idx < ctx.chunk.globalSlotCount := by
  rw [checkSlotIndex, ite_error_ok]
  simp

theorem optionalConst_ok
    (h : (if idx = noElementTypeName then .ok () else checkConstIndex ctx idx pc what) = .ok u) :
    InTables ctx (optionalConst idx) := by
  unfold optionalConst
  by_cases he : idx = 0xFFFF
  · rw [if_pos he]; exact InTables_nil ctx
  · have hne : ¬ idx = noElementTypeName := he
    rw [if_neg hne] at h
    rw [if_neg he, InTables_cons]
    exact ⟨checkConstIndex_ok.mp h, InTables_nil ctx⟩

theorem walkArrayBounds_ok (dims cursor dynamic : Nat)
    (h : walkArrayBounds ctx pc what dims cursor = .ok dynamic) :
    InTables ctx (arrayBoundRefs ctx.chunk dims cursor) := by
  induction dims generalizing cursor dynamic with
  | zero => exact InTables_nil ctx
  | succ dims ih =>
    rw [walkArrayBounds] at h
    rw [arrayBoundRefs, InTables_append]
    by_cases hd : ctx.chunk.u16 cursor = 0xFFFF ∧ ctx.chunk.u16 (cursor + 2) = 0xFFFF
    · rw [if_pos hd] at h ⊢
      obtain ⟨rest, hrest, _⟩ := bind_ok.mp h
      exact ⟨InTables_nil ctx, ih _ rest hrest⟩
    · rw [if_neg hd] at h ⊢
      obtain ⟨_, hlo, h⟩ := bind_ok.mp h
      obtain ⟨_, hhi, h⟩ := bind_ok.mp h
      refine ⟨?_, ih _ dynamic h⟩
      rw [InTables_cons, InTables_cons]
      exact ⟨checkConstIndex_ok.mp hlo, checkConstIndex_ok.mp hhi, InTables_nil ctx⟩

theorem walkDefineGlobalPayload_ok {typePos : Nat}
    (h : walkDefineGlobalPayload ctx pc typePos = .ok u) :
    InTables ctx (definePayloadRefs ctx.chunk typePos) := by
  rw [walkDefineGlobalPayload] at h
  dsimp only at h
  split at h <;> rename_i ht <;> rw [definePayloadRefs]
  · obtain ⟨dynamic, hb, h⟩ := bind_ok.mp h
    rw [ht, arrayPayloadRefs, InTables_append, InTables_cons]
    exact ⟨walkArrayBounds_ok _ _ dynamic hb, checkConstIndex_ok.mp h, InTables_nil ctx⟩
  · obtain ⟨_, h1, h⟩ := bind_ok.mp h
    rw [ht, InTables_cons, InTables_cons]
    exact ⟨checkConstIndex_ok.mp h1, checkConstIndex_ok.mp h, InTables_nil ctx⟩
  · obtain ⟨_, h1, h⟩ := bind_ok.mp h
    rw [ht, InTables_cons]
    exact ⟨checkConstIndex_ok.mp h1, optionalConst_ok h⟩
  · split
    · contradiction
    · contradiction
    · contradiction
    · rw [InTables_cons]
      exact ⟨checkConstIndex_ok.mp h, InTables_nil ctx⟩

theorem variable_cases {op : OpCode} (h : op.info.operands = .variable) :
    op = .defineGlobal ∨ op = .defineGlobal16 ∨ op = .defineGlobalSlot ∨
      op = .initLocalArray ∨ op = .initFieldArray := by
  cases op <;> first | (cases h; done) | simp

theorem walkVariablePayload_ok {dynamic : Nat} (h : walkVariablePayload ctx pc = .ok dynamic)
    {op : OpCode} (hop : ctx.chunk.opcode? pc = some op) (hvar : op.info.operands = .variable) :
    InTables ctx (tableRefs ctx.chunk pc) := by
  rw [walkVariablePayload] at h
  dsimp only at h
  rw [tableRefs]
  rcases variable_cases hvar with rfl | rfl | rfl | harr
  · rw [hop] at h ⊢
    obtain ⟨_, hname, h⟩ := bind_ok.mp h
    obtain ⟨_, hrest, _⟩ := bind_ok.mp h
    rw [InTables_cons]
    exact ⟨checkConstIndex_ok.mp hname, walkDefineGlobalPayload_ok hrest⟩
  · rw [hop] at h ⊢
    obtain ⟨_, hname, h⟩ := bind_ok.mp h
    obtain ⟨_, hrest, _⟩ := bind_ok.mp h
    rw [InTables_cons]
    exact ⟨checkConstIndex_ok.mp hname, walkDefineGlobalPayload_ok hrest⟩
  · rw [hop] at h ⊢
    obtain ⟨_, hslot, h⟩ := bind_ok.mp h
    obtain ⟨_, hrest, _⟩ := bind_ok.mp h
    rw [InTables_cons]
    exact ⟨checkSlotIndex_ok.mp hslot, walkDefineGlobalPayload_ok hrest⟩
  · have hrefs : InTables ctx (arrayPayloadRefs ctx.chunk (pc + 2)) := by
      rw [hop] at h
      rcases harr with rfl | rfl
      all_goals
        obtain ⟨dyn, hb, h⟩ := bind_ok.mp h
        obtain ⟨_, hname, _⟩ := bind_ok.mp h
        rw [arrayPayloadRefs, InTables_append, InTables_cons]
        exact ⟨walkArrayBounds_ok _ _ dyn hb, checkConstIndex_ok.mp hname, InTables_nil ctx⟩
    rw [hop]
    rcases harr with rfl | rfl <;> exact hrefs

theorem checkOperand_ok (hs : ctx.Scanned) {len : Nat} {op : Operand} {cursor : Nat}
    (h : checkOperand ctx pc len name op cursor = .ok ()) :
    InTables ctx (operandRef ctx.chunk (pc + len) op cursor) := by
  cases op with
  | k | K => exact InTables_cons.mpr ⟨checkConstIndex_ok.mp h, InTables_nil ctx⟩
  | c => exact InTables_cons.mpr ⟨checkCacheIndex_ok.mp h, InTables_nil ctx⟩
  | s => exact InTables_cons.mpr ⟨checkSlotIndex_ok.mp h, InTables_nil ctx⟩
  | W =>
    obtain ⟨hb, _⟩ := ite_error_ok.mp h
    push Not at hb
    have hstart : InstrStart ctx.chunk (ctx.chunk.u32 cursor) :=
      (boundary_iff hs _).mp (by simpa using hb.2)
    exact InTables_cons.mpr ⟨⟨_, rfl, hstart⟩, InTables_nil ctx⟩
  | j =>
    obtain ⟨hb, _⟩ := ite_error_ok.mp h
    obtain ⟨hstart, heq⟩ := boundary_int hs hb
    exact InTables_cons.mpr ⟨⟨_, heq, hstart⟩, InTables_nil ctx⟩
  | _ => exact InTables_nil ctx

theorem checkOperands_ok (hs : ctx.Scanned) {len : Nat} (ops : List Operand) (cursor : Nat)
    (h : checkOperands ctx pc len name ops cursor = .ok ()) :
    InTables ctx (operandRefs ctx.chunk (pc + len) ops cursor) := by
  induction ops generalizing cursor with
  | nil => exact InTables_nil ctx
  | cons op ops ih =>
    obtain ⟨_, hop, hrest⟩ := bind_ok.mp h
    rw [operandRefs, InTables_append]
    exact ⟨checkOperand_ok hs hop, ih _ hrest⟩

theorem checkFieldName_ok (h : checkFieldName ctx pc idx name = .ok ()) :
    idx < ctx.chunk.constants.length := by
  obtain ⟨_, hc, _⟩ := bind_ok.mp h
  exact checkConstIndex_ok.mp hc

theorem verifyInstruction_ok (hs : ctx.Scanned) (h : verifyInstruction ctx pc = .ok ()) :
    InTables ctx (tableRefs ctx.chunk pc) := by
  rw [verifyInstruction] at h
  dsimp only at h
  cases hop : ctx.chunk.opcode? pc with
  | none =>
    rw [tableRefs, hop]
    exact InTables_nil ctx
  | some op =>
    rw [hop] at h
    dsimp only at h
    split at h <;> rename_i hlay
    · obtain ⟨dyn, hdyn⟩ := discard_ok.mp h
      exact walkVariablePayload_ok hdyn hop hlay
    · rename_i ops
      split at h
      -- CALL_HOST and INIT_LOCAL_FILE name their table entries outside the letters
      · obtain ⟨hlt, _⟩ := ite_error_ok.mp h
        rw [tableRefs, hop]
        exact InTables_cons.mpr ⟨Nat.lt_of_not_le hlt, InTables_nil ctx⟩
      · rw [tableRefs, hop]
        exact optionalConst_ok h
      · cases hlay
        rw [tableRefs_fixed hop rfl (by simp) (by simp)]
        exact InTables_cons.mpr ⟨checkFieldName_ok h, InTables_nil ctx⟩
      · cases hlay
        rw [tableRefs_fixed hop rfl (by simp) (by simp)]
        exact InTables_cons.mpr ⟨checkFieldName_ok h, InTables_nil ctx⟩
      · cases hlay
        rw [tableRefs_fixed hop rfl (by simp) (by simp)]
        exact InTables_cons.mpr ⟨checkFieldName_ok h, InTables_nil ctx⟩
      · cases hlay
        rw [tableRefs_fixed hop rfl (by simp) (by simp)]
        exact InTables_cons.mpr ⟨checkFieldName_ok h, InTables_nil ctx⟩
      · rw [tableRefs_fixed hop hlay (by simp) (by simp)]
        exact checkOperands_ok hs _ _ (ite_error_ok.mp h).2
      · rw [tableRefs_fixed hop hlay (by simp) (by simp)]
        split at h
        · exact checkOperands_ok hs _ _ h
        · exact checkOperands_ok hs _ _ h
        · exact checkOperands_ok hs _ _ h
        · cases h
      · rename_i hhost hfile _ _ _ _ _ _
        rw [tableRefs_fixed hop hlay hhost hfile]
        exact checkOperands_ok hs _ _ h

theorem verifyOperands_ok (hs : ctx.Scanned) (h : verifyOperands ctx = .ok ())
    (hpc : InstrStart ctx.chunk pc) : InTables ctx (tableRefs ctx.chunk pc) :=
  verifyInstruction_ok hs
    (forM_ok.mp h pc ((verifyInstructionStream_mem hs.stream pc).mpr hpc))

end Pscal
