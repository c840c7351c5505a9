import Mathlib
import Pscal.Bytecode.Stream
import Pscal.Lib.Patch
import Pscal.Link.Slots

/-!
# What linking does to a chunk

* `SlotInstr chunk p`  a global-slot instruction starts at `p`;
* `Linked c₀ c names pc`  the instructions of `c₀` before `pc` are linked in `c`;
* `linkLoop_spec`  the walk keeps it, up to the end or the instruction that fails;
* `LinkCorrect`, `LinkStopped`  a chunk after a call that succeeds, or fails.
-/

namespace Pscal

open BytecodeChunk List BytecodeChunk

/-! ## name fields -/

def OpCode.isSlotOp : OpCode → Bool
  | .defineGlobalSlot | .getGslot | .setGslot | .getGslotAddress => true
  | _ => false

/-- a global-slot instruction starts at `p` -/
def SlotInstr (chunk : BytecodeChunk) (p : Nat) : Prop :=
  InstrStart chunk p ∧ ∃ op, chunk.opcode? p = some op ∧ op.isSlotOp = true

def fieldName (chunk : BytecodeChunk) (p : Nat) : Option String :=
  linkResolveName chunk (chunk.u16 (p + 1))

theorem u16_lt (chunk : BytecodeChunk) (pos : Nat) : chunk.u16 pos < 65536 := by
  have h := (chunk.byte pos).toNat_lt
  have h' := (chunk.byte (pos + 1)).toNat_lt
  rw [u16, u8, u8]
  omega

section
variable {chunk : BytecodeChunk} {pos value : Nat} (h : pos + 2 ≤ chunk.count)
include h

theorem count_linkWrite : (linkWriteU16BE chunk pos value).count = chunk.count :=
  Patch.length_write (show pos + (uint16Bytes value).length ≤ chunk.code.length from h)

theorem byte_linkWrite_of_ne {k : Nat} (h₁ : k ≠ pos) (h₂ : k ≠ pos + 1) :
    (linkWriteU16BE chunk pos value).byte k = chunk.byte k := by
  have hout : Patch.Outside (pos, uint16Bytes value) k := by
    show k < pos ∨ pos + 2 ≤ k
    omega
  have hget := Patch.getElem?_write_of_outside
    (show pos + (uint16Bytes value).length ≤ chunk.code.length from h) hout
  show (Patch.write chunk.code pos (uint16Bytes value)).getD k 0 = chunk.code.getD k 0
  rw [getD_eq_getElem?_getD, hget, ← getD_eq_getElem?_getD]

theorem u16_linkWrite (hv : value < 65536) : (linkWriteU16BE chunk pos value).u16 pos = value := by
  have hget : ∀ i, i < 2 → (linkWriteU16BE chunk pos value).byte (pos + i) =
      (uint16Bytes value).getD i 0 := by
    intro i hi
    have := Patch.getElem?_write_of_inside
      (show pos + (uint16Bytes value).length ≤ chunk.code.length from h) (i := i) hi
    show (Patch.write chunk.code pos (uint16Bytes value)).getD (pos + i) 0 = _
    rw [getD_eq_getElem?_getD, this, ← getD_eq_getElem?_getD]
  have hget₀ : (linkWriteU16BE chunk pos value).byte pos = (uint16Bytes value).getD 0 0 :=
    hget 0 (by omega)
  rw [u16, u8, u8, hget 1 (by omega), hget₀]
  show 256 * (UInt8.ofNat (value / 256)).toNat + (UInt8.ofNat value).toNat = value
  rw [UInt8.toNat_ofNat', UInt8.toNat_ofNat']
  omega

end

/-! ## one instruction -/

variable {chunk c : BytecodeChunk} {pc : Nat} {result : BytecodeChunk × List String × Nat}
  {names : List String}

theorem defineGlobalSlotPayloadLength_decode {len : Nat}
    (hop : chunk.opcode? pc = some .defineGlobalSlot)
    (h : defineGlobalSlotPayloadLength chunk pc = some len) :
    pscalDecodeInstructionLength chunk pc = ⟨true, len⟩ ∧ 3 ≤ len ∧ pc + len ≤ chunk.count := by
  unfold defineGlobalSlotPayloadLength at h
  split at h
  · cases h
  · rename_i hin
    have hdecode : pscalDecodeInstructionLength chunk pc =
        decodeDefineGlobalLength 2 chunk pc := by
      unfold pscalDecodeInstructionLength
      rw [if_pos (by omega), hop]
    rw [hdecode]
    unfold decodeDefineGlobalLength
    dsimp only at h ⊢
    rw [if_neg (by omega), show pc + 1 + 2 = pc + 3 from rfl]
    generalize VarType.ofByte (chunk.byte (pc + 3)) = declared at h ⊢
    have hend : ∀ n, (if chunk.count < pc + n then none else some (pc + n - pc)) = some len →
        3 ≤ n → len = n ∧ 3 ≤ len ∧ pc + len ≤ chunk.count := by
      intro n hn hle
      split at hn
      · cases hn
      · cases hn
        omega
    rcases declared with _ | t
    · obtain ⟨rfl, hle⟩ := hend 6 h (by omega)
      exact ⟨rfl, hle⟩
    · cases t
      case array =>
        dsimp only at h
        by_cases hdims : chunk.count ≤ pc + 4
        · rw [if_pos hdims] at h
          cases h
        · rw [if_neg hdims, show pc + 4 + 1 + chunk.u8 (pc + 4) * 4 + 3 =
            pc + (chunk.u8 (pc + 4) * 4 + 8) by omega] at h
          obtain ⟨rfl, hle⟩ := hend _ h (by omega)
          dsimp only
          rw [if_pos (by omega), arrayTailLength, show pc + 3 + 1 = pc + 4 from rfl]
          exact ⟨by congr 1; omega, hle⟩
      case string =>
        obtain ⟨rfl, hle⟩ := hend 8 h (by omega)
        exact ⟨rfl, hle⟩
      case file =>
        obtain ⟨rfl, hle⟩ := hend 9 h (by omega)
        exact ⟨rfl, hle⟩
      all_goals
        obtain ⟨rfl, hle⟩ := hend 6 h (by omega)
        exact ⟨rfl, hle⟩

/-- a linked instruction: it is whole, and only its name field is written -/
inductive LinkedInstruction (chunk : BytecodeChunk) (list : List String) (pc : Nat) :
    BytecodeChunk × List String × Nat → Prop where
  | slot {op : OpCode} {name : String} {len : Nat} (hop : chunk.opcode? pc = some op)
      (hslot : op.isSlotOp = true) (hdecode : pscalDecodeInstructionLength chunk pc = ⟨true, len⟩)
      (hlen : 3 ≤ len) (hin : pc + len ≤ chunk.count) (hname : fieldName chunk pc = some name) :
      LinkedInstruction chunk list pc
        (linkWriteU16BE chunk (pc + 1) ((Intern.intern list (slotName name)).2 % 65536),
          (Intern.intern list (slotName name)).1, len)
  | other {op : OpCode} {len : Nat} (hop : chunk.opcode? pc = some op)
      (hslot : op.isSlotOp = false) (hdecode : pscalDecodeInstructionLength chunk pc = ⟨true, len⟩)
      (hin : pc + len ≤ chunk.count) : LinkedInstruction chunk list pc (chunk, list, len)

theorem linkNameFieldToSlot_cases {list : List String} {len : Nat} {opcodeName : String}
    (h : ((linkNameFieldToSlot chunk list pc opcodeName).map fun (chunk, list) => (chunk, list,
      len)) = .ok result) :
    ∃ name, fieldName chunk pc = some name ∧
      result = (linkWriteU16BE chunk (pc + 1) ((Intern.intern list (slotName name)).2 % 65536),
        (Intern.intern list (slotName name)).1, len) := by
  unfold linkNameFieldToSlot at h
  split at h
  · cases h
  · rename_i name hname
    cases h
    exact ⟨name, hname, rfl⟩

theorem linkInstruction_cases {list : List String} (hlt : pc < chunk.count)
    (h : linkInstruction chunk list pc = .ok result) : LinkedInstruction chunk list pc result := by
  have hshort : ∀ op name, chunk.opcode? pc = some op → op.isSlotOp = true →
      op.info.operands.length? = some 2 →
      (if chunk.count < pc + 3 then Except.error s!"pc {pc}: truncated global-slot instruction"
        else (linkNameFieldToSlot chunk list pc name).map fun (chunk, list) => (chunk, list, 3)) =
        .ok result → LinkedInstruction chunk list pc result := by
    intro op name hop hslot hlen hok
    split at hok
    · cases hok
    · rename_i hin
      obtain ⟨name, hname, rfl⟩ := linkNameFieldToSlot_cases hok
      exact .slot hop hslot (decodeInstructionLength_of_fixed hlt hop hlen) (Nat.le_refl _)
        (by omega) hname
  unfold linkInstruction at h
  dsimp only at h
  split at h
  · rename_i hop
    split at h
    · cases h
    · rename_i len hlen
      obtain ⟨name, hname, rfl⟩ := linkNameFieldToSlot_cases h
      obtain ⟨hdecode, hle, hin⟩ := defineGlobalSlotPayloadLength_decode hop hlen
      exact .slot hop rfl hdecode hle hin hname
  · rename_i hop
    exact hshort _ _ hop rfl rfl h
  · rename_i hop
    exact hshort _ _ hop rfl rfl h
  · rename_i hop
    exact hshort _ _ hop rfl rfl h
  · cases h
  · rename_i op hdefine hget hset haddress hop
    split at h
    · cases h
    · rename_i hok
      cases h
      obtain ⟨hdecoded, hin⟩ := not_or.mp hok
      have hslot : op.isSlotOp = false := by
        cases op <;> first | rfl | contradiction
      refine .other hop hslot ?_ (by omega)
      cases hd : pscalDecodeInstructionLength chunk pc with
      | mk ok len =>
        rw [hd] at hdecoded
        cases ok with
        | true => rfl
        | false => exact absurd rfl hdecoded

/-! ## the walk -/

/-- the instructions of `c₀` before `pc` are linked in `c` -/
structure Linked (c₀ c : BytecodeChunk) (names : List String) (pc : Nat) : Prop where
  tables : c = { c₀ with code := c.code }
  count : c.count = c₀.count
  start : pc < c₀.count → InstrStart c₀ pc
  le : pc ≤ c₀.count
  kept : ∀ k, (∀ p, SlotInstr c₀ p → p < pc → k ≠ p + 1 ∧ k ≠ p + 2) → c.byte k = c₀.byte k
  before : ∀ p, SlotInstr c₀ p → p < pc → p + 3 ≤ pc ∧
    ∃ name, fieldName c₀ p = some name ∧ names[c.u16 (p + 1)]? = some (slotName name)
  used : ∀ i, i < names.length → ∃ p, SlotInstr c₀ p ∧ p < pc ∧ c.u16 (p + 1) = i
  nodup : names.Nodup
  whole : ∀ p, InstrStart c₀ p → p < pc →
    ∃ n, pscalDecodeInstructionLength c₀ p = ⟨true, n⟩ ∧ p + n ≤ c₀.count

theorem linked_start (c₀ : BytecodeChunk) : Linked c₀ c₀ [] 0 where
  tables := rfl
  count := rfl
  start h := .first h
  le := Nat.zero_le _
  kept _ _ := rfl
  before _ _ h := absurd h (Nat.not_lt_zero _)
  used _ h := absurd h (Nat.not_lt_zero _)
  nodup := nodup_nil
  whole _ _ h := absurd h (Nat.not_lt_zero _)

section
variable {c₀ c : BytecodeChunk} {names : List String} {pc : Nat} (h : Linked c₀ c names pc)
include h

theorem Linked.byte {k : Nat} (hk : pc ≤ k) : c.byte k = c₀.byte k :=
  h.kept k fun p hp hlt => by
    have := (h.before p hp hlt).1
    omega

theorem Linked.u16 {k : Nat} (hk : pc ≤ k) : c.u16 k = c₀.u16 k := by
  rw [BytecodeChunk.u16, BytecodeChunk.u16, BytecodeChunk.u8, BytecodeChunk.u8, BytecodeChunk.u8,
    u8, h.byte hk, h.byte (by omega)]

theorem Linked.opcode? : c.opcode? pc = c₀.opcode? pc :=
  congrArg OpCode.ofByte (h.byte (Nat.le_refl _))

theorem Linked.fieldName : fieldName c pc = fieldName c₀ pc := by
  have hconstants : c.constants = c₀.constants := by
    rw [h.tables]
  rw [Pscal.fieldName, Pscal.fieldName, linkResolveName, linkResolveName, hconstants,
    h.u16 (by omega)]

theorem Linked.decode {len : Nat} (hdecode : pscalDecodeInstructionLength c pc = ⟨true, len⟩)
    (hin : pc + len ≤ c.count) : pscalDecodeInstructionLength c₀ pc = ⟨true, len⟩ :=
  decodeInstructionLength_congr hin (h.count ▸ hin)
    (fun i _ => (h.byte (Nat.le_add_right pc i)).symm) hdecode

theorem Linked.mem_names {x : String} (hx : x ∈ names) :
    ∃ idx, idx < 65536 ∧ (linkResolveName c₀ idx).map slotName = some x := by
  obtain ⟨i, hi, rfl⟩ := mem_iff_getElem.mp hx
  obtain ⟨p, hp, hlt, hslot⟩ := h.used i hi
  obtain ⟨-, name, hname, hget⟩ := h.before p hp hlt
  rw [hslot, getElem?_eq_getElem hi] at hget
  refine ⟨c₀.u16 (p + 1), u16_lt c₀ _, ?_⟩
  rw [show linkResolveName c₀ (c₀.u16 (p + 1)) = some name from hname, hget]
  rfl

end

theorem names_length_le (hnodup : names.Nodup)
    (h : ∀ x ∈ names, ∃ idx, idx < 65536 ∧ (linkResolveName chunk idx).map slotName = some x) :
    names.length ≤ 65536 := by
  have hsub : names ⊆ (List.range 65536).filterMap
      fun idx => (linkResolveName chunk idx).map slotName := fun x hx => by
    obtain ⟨idx, hlt, hx⟩ := h x hx
    exact mem_filterMap.mpr ⟨idx, mem_range.mpr hlt, hx⟩
  calc names.length ≤ _ := (List.Nodup.subperm hnodup hsub).length_le
    _ ≤ (List.range 65536).length := length_filterMap_le _ _
    _ = 65536 := length_range

theorem linked_step {c₀ : BytecodeChunk} (h : Linked c₀ c names pc) (hlt : pc < c₀.count)
    (hstep : LinkedInstruction c names pc result) :
    0 < result.2.2 ∧ Linked c₀ result.1 result.2.1 (pc + result.2.2) := by
  have hstart := h.start hlt
  -- an instruction passed by the step is the one at `pc` or was passed before
  have hpassed : ∀ len, pscalDecodeInstructionLength c pc = ⟨true, len⟩ →
      pc + len ≤ c.count → ∀ p, InstrStart c₀ p → p < pc + len → p < pc ∨ p = pc := by
    intro len hdecode hin p hp hlt'
    have hlen : getInstructionLength c₀ pc = len :=
      congrArg DecodedLength.length (h.decode hdecode hin)
    rcases Nat.lt_trichotomy p pc with hlt'' | heq | hgt
    · exact .inl hlt''
    · exact .inr heq
    · have := hstart.apart hp hgt
      omega
  have hnext : ∀ len, pscalDecodeInstructionLength c pc = ⟨true, len⟩ → pc + len ≤ c.count →
      pc + len < c₀.count → InstrStart c₀ (pc + len) := fun len hdecode hin hlt' =>
    hstart.step (congrArg DecodedLength.length (h.decode hdecode hin)) hlt'
  have hwhole : ∀ len, pscalDecodeInstructionLength c pc = ⟨true, len⟩ → pc + len ≤ c.count →
      ∀ p, InstrStart c₀ p → p < pc + len →
      ∃ n, pscalDecodeInstructionLength c₀ p = ⟨true, n⟩ ∧ p + n ≤ c₀.count := by
    intro len hdecode hin p hp hlt'
    rcases hpassed len hdecode hin p hp hlt' with hold | rfl
    · exact h.whole p hp hold
    · exact ⟨len, h.decode hdecode hin, h.count ▸ hin⟩
  cases hstep with
  | @other op len hop hslot hdecode hin =>
    have hpos : 0 < len := by
      have := decodeInstructionLength_pos c pc
      rwa [hdecode] at this
    have hnot : ¬ SlotInstr c₀ pc := by
      rintro ⟨-, op', hop', hslot'⟩
      rw [← h.opcode?, hop] at hop'
      cases hop'
      rw [hslot] at hslot'
      cases hslot'
    have hold : ∀ p, SlotInstr c₀ p → p < pc + len → p < pc := by
      intro p hp hlt'
      rcases hpassed len hdecode hin p hp.1 hlt' with hlt'' | rfl
      · exact hlt''
      · exact absurd hp hnot
    refine ⟨hpos, h.tables, h.count, hnext len hdecode hin, h.count ▸ hin, fun k hk => ?_,
      fun p hp hlt' => ?_, fun i hi => ?_, h.nodup, hwhole len hdecode hin⟩
    · exact h.kept k fun p hp hlt' => hk p hp (by show p < pc + len; omega)
    · obtain ⟨hle, hfield⟩ := h.before p hp (hold p hp hlt')
      exact ⟨by show p + 3 ≤ pc + len; omega, hfield⟩
    · obtain ⟨p, hp, hlt', hslot'⟩ := h.used i hi
      exact ⟨p, hp, by show p < pc + len; omega, hslot'⟩
  | @slot op name len hop hslot hdecode hlen hin hname =>
    have hcount := h.count
    have hfield : pc + 1 + 2 ≤ c.count := by omega
    have hslotInstr : SlotInstr c₀ pc := ⟨hstart, op, h.opcode? ▸ hop, hslot⟩
    have hname₀ : fieldName c₀ pc = some name := h.fieldName ▸ hname
    have hpre := Intern.intern_prefix names (slotName name)
    have hsize : (Intern.intern names (slotName name)).2 < 65536 := by
      have hlength := names_length_le (Intern.intern_nodup h.nodup (slotName name)) fun x hx => by
        rcases Intern.mem_intern hx with hx | rfl
        · exact h.mem_names hx
        · refine ⟨c₀.u16 (pc + 1), u16_lt c₀ _, ?_⟩
          rw [show linkResolveName c₀ (c₀.u16 (pc + 1)) = some name from hname₀]
          rfl
      exact Nat.lt_of_lt_of_le (Intern.intern_lt names (slotName name)) hlength
    rw [Nat.mod_eq_of_lt hsize]
    have hold : ∀ p, SlotInstr c₀ p → p < pc →
        (linkWriteU16BE c (pc + 1) (Intern.intern names (slotName name)).2).u16 (p + 1) =
          c.u16 (p + 1) := by
      intro p hp hlt'
      have hle := (h.before p hp hlt').1
      rw [u16, u16, u8, u8,
        u8, u8, byte_linkWrite_of_ne hfield (by omega) (by omega),
        byte_linkWrite_of_ne hfield (by omega) (by omega)]
    have hnew := u16_linkWrite hfield hsize
    refine ⟨by show 0 < len; omega, ?_, ?_, hnext len hdecode hin, hcount ▸ hin, fun k hk => ?_,
      fun p hp hlt' => ?_, fun i hi => ?_, Intern.intern_nodup h.nodup _,
      hwhole len hdecode hin⟩
    · show linkWriteU16BE c _ _ = _
      rw [linkWriteU16BE, h.tables]
    · exact (count_linkWrite hfield).trans hcount
    · have hne := hk pc hslotInstr (by show pc < pc + len; omega)
      show (linkWriteU16BE c (pc + 1) _).byte k = _
      rw [byte_linkWrite_of_ne hfield hne.1 (by omega)]
      exact h.kept k fun p hp hlt' => hk p hp (by show p < pc + len; omega)
    · rcases hpassed len hdecode hin p hp.1 hlt' with hlt'' | rfl
      · obtain ⟨hle, name', hname', hget⟩ := h.before p hp hlt''
        refine ⟨by show p + 3 ≤ pc + len; omega, name', hname', ?_⟩
        show (Intern.intern names (slotName name)).1[_]? = _
        rw [hold p hp hlt'']
        exact Intern.getElem?_of_prefix hpre hget
      · refine ⟨by show p + 3 ≤ p + len; omega, name, hname₀, ?_⟩
        show (Intern.intern names (slotName name)).1[_]? = _
        rw [hnew]
        exact Intern.intern_getElem? _ _
    · rcases Intern.intern_index hi with hi | rfl
      · obtain ⟨p, hp, hlt', hslot'⟩ := h.used i hi
        exact ⟨p, hp, by show p < pc + len; omega, (hold p hp hlt').trans hslot'⟩
      · exact ⟨pc, hslotInstr, by show pc < pc + len; omega, hnew⟩

theorem linkLoop_spec {c₀ : BytecodeChunk} (room : Nat) (h : Linked c₀ c names pc)
    (hroom : c₀.count - pc ≤ room) :
    (∀ c' names', linkLoop room c names pc = (c', .ok names') → Linked c₀ c' names' c₀.count) ∧
      ∀ c' message, linkLoop room c names pc = (c', .error message) →
        ∃ names' pc', Linked c₀ c' names' pc' ∧ pc' < c₀.count := by
  induction room generalizing c names pc with
  | zero =>
    have hend : pc = c₀.count := by
      have := h.le
      omega
    rw [linkLoop]
    refine ⟨fun c' names' heq => ?_, nofun⟩
    cases heq
    rwa [← hend]
  | succ room ih =>
    rw [linkLoop, h.count]
    split
    · rename_i hlt
      cases hstep : linkInstruction c names pc with
      | error message =>
        refine ⟨nofun, fun c' message' heq => ?_⟩
        cases heq
        exact ⟨names, pc, h, hlt⟩
      | ok result =>
        obtain ⟨c₁, names₁, len⟩ := result
        obtain ⟨hpos, hnext⟩ := linked_step h hlt
          (linkInstruction_cases (by rw [h.count]; exact hlt) hstep)
        have hpos : 0 < len := hpos
        exact ih hnext (by show c₀.count - (pc + len) ≤ room; omega)
    · have hend : pc = c₀.count := by
        have := h.le
        omega
      refine ⟨fun c' names' heq => ?_, nofun⟩
      cases heq
      rwa [← hend]

/-! ## the call -/

/-- a chunk `c'` that a successful call leaves of `c` -/
structure LinkCorrect (c c' : LinkChunk) : Prop where
  linked : c'.globalsLinked = true
  constants : c'.constants = c.constants
  count : c'.count = c.count
  starts : ∀ pc, InstrStart c'.toBytecodeChunk pc ↔ InstrStart c.toBytecodeChunk pc
  bytes : ∀ k, (∀ p, SlotInstr c.toBytecodeChunk p → k ≠ p + 1 ∧ k ≠ p + 2) →
    c'.byte k = c.byte k
  names : ∀ p, SlotInstr c.toBytecodeChunk p → ∃ name,
    fieldName c.toBytecodeChunk p = some name ∧
      c'.globalSlotNames[c'.u16 (p + 1)]? = some (slotName name)
  sameSlot : ∀ p q, SlotInstr c.toBytecodeChunk p → SlotInstr c.toBytecodeChunk q →
    (c'.u16 (p + 1) = c'.u16 (q + 1) ↔
      (fieldName c.toBytecodeChunk p).map slotName = (fieldName c.toBytecodeChunk q).map slotName)
  slots : c'.globalSlotNames.length = c'.globalSlotCount ∧ ∀ slot, slot < c'.globalSlotCount ↔
    ∃ p, SlotInstr c.toBytecodeChunk p ∧ c'.u16 (p + 1) = slot
  again : ∀ tables, pscalLinkGlobalSlots tables c' = (c', none)

theorem decodeInstructionLength_slot {chunk' : BytecodeChunk} {n : Nat} {op : OpCode}
    (hop : chunk.opcode? pc = some op) (hslot : op.isSlotOp = true) (hin : pc + n ≤ chunk.count)
    (hin' : pc + n ≤ chunk'.count)
    (hbytes : ∀ i, i ≠ 1 → i ≠ 2 → i < n → chunk'.byte (pc + i) = chunk.byte (pc + i))
    (h : pscalDecodeInstructionLength chunk pc = ⟨true, n⟩) :
    3 ≤ n ∧ pscalDecodeInstructionLength chunk' pc = ⟨true, n⟩ := by
  have hpos : 0 < n := by
    have := decodeInstructionLength_pos chunk pc
    rwa [h] at this
  have hop' : chunk'.opcode? pc = some op :=
    (congrArg OpCode.ofByte (hbytes 0 (by omega) (by omega) hpos)).trans hop
  have hfixed : op.info.operands.length? = some 2 →
      3 ≤ n ∧ pscalDecodeInstructionLength chunk' pc = ⟨true, n⟩ := by
    intro hlen
    rw [decodeInstructionLength_of_fixed (by omega) hop hlen] at h
    cases h
    exact ⟨Nat.le_refl _, decodeInstructionLength_of_fixed (by omega) hop' hlen⟩
  cases op <;> first | (cases hslot; done) | (exact hfixed rfl) | skip
  unfold pscalDecodeInstructionLength at h ⊢
  rw [if_pos (by omega), hop] at h
  rw [if_pos (by omega), hop']
  have hlong : 3 ≤ n := by
    have h' : decodeDefineGlobalLength 2 chunk pc = ⟨true, n⟩ := h
    unfold decodeDefineGlobalLength at h'
    dsimp only at h'
    split at h'
    · cases h'
    · split at h'
      · split at h'
        · cases h'
          omega
        · cases h'
      all_goals
        cases h'
        omega
  exact ⟨hlong, decodeDefineGlobalLength_congr hin hin'
    (fun i h₁ h₂ => hbytes i (by omega) (by omega) h₂) h⟩

section
variable {c₀ c : BytecodeChunk} {names : List String} (h : Linked c₀ c names c₀.count)
include h

theorem Linked.decode_end {pc : Nat} (hpc : InstrStart c₀ pc) :
    getInstructionLength c pc = getInstructionLength c₀ pc := by
  obtain ⟨n, hdecode, hin⟩ := h.whole pc hpc hpc.lt
  have hn : getInstructionLength c₀ pc = n := congrArg DecodedLength.length hdecode
  -- a written byte inside the instruction is in its own name field
  have hbytes : ∀ i, i < n → (SlotInstr c₀ pc → i ≠ 1 ∧ i ≠ 2) →
      c.byte (pc + i) = c₀.byte (pc + i) := by
    intro i hi hown
    refine h.kept _ fun p hp hlt => ?_
    rcases Nat.lt_trichotomy p pc with hbefore | rfl | hafter
    · obtain ⟨m, hdecode', hin'⟩ := h.whole p hp.1 hlt
      obtain ⟨op, hop, hslot⟩ := hp.2
      have hlong := (decodeInstructionLength_slot hop hslot hin' hin' (fun _ _ _ _ => rfl)
        hdecode').1
      have hm : getInstructionLength c₀ p = m := congrArg DecodedLength.length hdecode'
      have := hp.1.apart hpc hbefore
      omega
    · have := hown hp
      omega
    · have := hpc.apart hp.1 hafter
      omega
  rw [hn]
  have hin' : pc + n ≤ c.count := h.count ▸ hin
  by_cases hslot : SlotInstr c₀ pc
  · obtain ⟨op, hop, hop'⟩ := hslot.2
    exact congrArg DecodedLength.length (decodeInstructionLength_slot hop hop' hin hin'
      (fun i h₁ h₂ hi => hbytes i hi fun _ => ⟨h₁, h₂⟩) hdecode).2
  · exact congrArg DecodedLength.length (decodeInstructionLength_congr hin hin'
      (fun i hi => hbytes i hi fun hp => absurd hp hslot) hdecode)

theorem Linked.instrStart (pc : Nat) : InstrStart c pc ↔ InstrStart c₀ pc := by
  constructor
  · intro hpc
    induction hpc with
    | first hlt => exact .first (h.count ▸ hlt)
    | next _ hlt ih =>
      rw [h.decode_end ih, h.count] at hlt
      rw [h.decode_end ih]
      exact .next ih hlt
  · intro hpc
    induction hpc with
    | first hlt => exact .first (h.count ▸ hlt)
    | @next pc hpc hlt ih =>
      rw [← h.decode_end hpc] at hlt ⊢
      exact .next ih (h.count ▸ hlt)

end

theorem linked_end {result : BytecodeChunk × Except String (List String)}
    (hloop : linkLoop c.count c [] 0 = result) :
    (∀ c' names, result = (c', .ok names) → Linked c c' names c.count) ∧
      ∀ c' message, result = (c', .error message) →
        ∃ names pc, Linked c c' names pc ∧ pc < c.count := by
  obtain ⟨hok, herror⟩ := linkLoop_spec c.count (linked_start c) (Nat.sub_le _ _)
  exact ⟨fun c' names heq => hok c' names (hloop.trans heq),
    fun c' message heq => herror c' message (hloop.trans heq)⟩

theorem instrStart_setGlobalSlotCount (n : Nat) :
    InstrStart { chunk with globalSlotCount := n } pc ↔ InstrStart chunk pc := by
  constructor
  · intro h
    induction h with
    | first hlt => exact .first hlt
    | next _ hlt ih => exact .next ih hlt
  · intro h
    induction h with
    | first hlt => exact .first hlt
    | next _ hlt ih => exact .next ih hlt

theorem pscalLinkGlobalSlots_linked {chunk : LinkChunk} (h : chunk.globalsLinked = true)
    (tables : GlobalTables) : pscalLinkGlobalSlots tables chunk = (chunk, none) := by
  rw [pscalLinkGlobalSlots, if_pos h]

/-- Two instructions get one slot when their names agree, in lower case, up to the length of a
symbol. -/
theorem pscalLinkGlobalSlots_correct (tables : GlobalTables) {chunk : LinkChunk}
    (hunlinked : chunk.globalsLinked = false) (hok : (pscalLinkGlobalSlots tables chunk).2 = none) :
    LinkCorrect chunk (pscalLinkGlobalSlots tables chunk).1 := by
  unfold pscalLinkGlobalSlots at hok ⊢
  rw [if_neg (by rw [hunlinked]; decide)] at hok ⊢
  split at hok
  · rename_i hempty
    have hnone : ∀ p, ¬ SlotInstr chunk.toBytecodeChunk p := fun p hp => by
      have := hp.1.lt
      omega
    rw [if_pos hempty]
    exact {
      linked := rfl
      constants := rfl
      count := rfl
      starts := fun pc => instrStart_setGlobalSlotCount 0
      bytes := fun _ _ => rfl
      names := fun p hp => absurd hp (hnone p)
      sameSlot := fun p _ hp => absurd hp (hnone p)
      slots := ⟨rfl, fun slot => ⟨fun h => absurd h (Nat.not_lt_zero _),
        fun ⟨p, hp, _⟩ => absurd hp (hnone p)⟩⟩
      again := pscalLinkGlobalSlots_linked rfl }
  · rename_i hcount
    rw [if_neg hcount]
    split at hok
    · cases hok
    · rename_i code names hloop
      have h := (linked_end rfl).1 code names hloop
      exact {
        linked := rfl
        constants := by
          show code.constants = _
          rw [h.tables]
        count := h.count
        starts := fun pc => (instrStart_setGlobalSlotCount _).trans (h.instrStart pc)
        bytes := fun k hk => h.kept k fun p hp _ => hk p hp
        names := fun p hp => (h.before p hp hp.1.lt).2
        sameSlot := fun p q hp hq => by
          obtain ⟨-, name, hname, hslot⟩ := h.before p hp hp.1.lt
          obtain ⟨-, name', hname', hslot'⟩ := h.before q hq hq.1.lt
          rw [hname, hname']
          exact (Intern.index_eq_iff h.nodup hslot hslot').trans Option.some_inj.symm
        slots := by
          refine ⟨rfl, fun slot => ⟨fun hlt => ?_, ?_⟩⟩
          · obtain ⟨p, hp, -, hslot⟩ := h.used slot hlt
            exact ⟨p, hp, hslot⟩
          · rintro ⟨p, hp, rfl⟩
            obtain ⟨-, name, -, hslot⟩ := h.before p hp hp.1.lt
            exact (List.getElem?_eq_some_iff.mp hslot).1
        again := pscalLinkGlobalSlots_linked rfl }

def noTables : GlobalTables :=
  { heap := fun _ => noSymbol, isConst := fun _ => false
    constGlobalSymbols := none, globalSymbols := none }

/-- `GET_GSLOT Total; SET_GSLOT TOTAL` -/
def totalChunk : LinkChunk :=
  { code := [101, 0, 0, 102, 0, 1]
    constants := [.str .string (some "Total"), .str .string (some "TOTAL")] }

theorem pscalLinkGlobalSlots_correct_total :
    LinkCorrect totalChunk (pscalLinkGlobalSlots noTables totalChunk).1 :=
  pscalLinkGlobalSlots_correct noTables rfl (by decide +kernel)

def twoNames (a b : String) : LinkChunk :=
  { code := [101, 0, 0, 101, 0, 1]
    constants := [.str .string (some a), .str .string (some b)] }

theorem linkInstruction_getGslot {name : String} (hop : chunk.opcode? pc = some .getGslot)
    (hin : pc + 3 ≤ chunk.count) (hname : fieldName chunk pc = some name) (list : List String) :
    linkInstruction chunk list pc =
      .ok (linkWriteU16BE chunk (pc + 1) ((Intern.intern list (slotName name)).2 % 65536),
        (Intern.intern list (slotName name)).1, 3) := by
  rw [linkInstruction, hop]
  dsimp only
  rw [if_neg (by omega), linkNameFieldToSlot,
    show linkResolveName chunk (chunk.u16 (pc + 1)) = some name from hname]
  rfl

theorem twoNames_linked {a b : String} (h : slotName b = slotName a) :
    linkLoop 6 (twoNames a b).toBytecodeChunk [] 0 =
      (linkWriteU16BE (twoNames a b).toBytecodeChunk 4 0, .ok [slotName a]) := by
  have hop : (twoNames a b).opcode? 0 = some .getGslot := rfl
  have hop' : (twoNames a b).opcode? 3 = some .getGslot := rfl
  have hintern : Intern.intern [slotName a] (slotName b) = ([slotName a], 0) := by
    rw [h, Intern.intern, findIdx?_cons, decide_eq_true rfl]
    rfl
  have hfirst := linkInstruction_getGslot hop (by show 0 + 3 ≤ 6; omega)
    (show fieldName (twoNames a b).toBytecodeChunk 0 = some a from rfl) []
  have hsecond := linkInstruction_getGslot hop' (by show 3 + 3 ≤ 6; omega)
    (show fieldName (twoNames a b).toBytecodeChunk 3 = some b from rfl) [slotName a]
  have hsame : linkWriteU16BE (twoNames a b).toBytecodeChunk 1 0 =
    (twoNames a b).toBytecodeChunk := rfl
  rw [show Intern.intern [] (slotName a) = ([slotName a], 0) from rfl, Nat.zero_mod, hsame]
    at hfirst
  rw [hintern] at hsecond
  rw [linkLoop, if_pos (by show 0 < 6; omega), hfirst]
  dsimp only
  rw [linkLoop, if_pos (by show 0 + 3 < 6; omega), hsecond]
  dsimp only
  rw [linkLoop, if_neg (by show ¬ 0 + 3 + 3 < 6; omega)]

/-- 255 letters and the last one -/
def longName (last : Char) : String := String.ofList (List.replicate 255 'a' ++ [last])

theorem cString_longName {last : Char} (h : last ≠ '\x00') :
    cString (longName last) = longName last := by
  rw [cString, longName, String.toList_ofList, takeWhile_eq_self_iff.mpr]
  intro c hc
  rcases mem_append.mp hc with hc | hc
  · rw [eq_of_mem_replicate hc]
    decide
  · rw [mem_singleton.mp hc, decide_eq_true_eq]
    exact h

theorem slotName_longName {last : Char} (h : last ≠ '\x00') :
    slotName (longName last) = toLowerString (String.ofList (replicate 255 'a')) := by
  rw [slotName, cString_longName h, truncateTo, longName, String.toList_ofList, maxSymbolLength,
    take_left' (length_replicate)]

/-- two names that differ in the 256th character only share a slot -/
theorem pscalLinkGlobalSlots_merges :
    (pscalLinkGlobalSlots noTables (twoNames (longName 'b') (longName 'c'))).2 = none ∧
      SlotInstr (twoNames (longName 'b') (longName 'c')).toBytecodeChunk 0 ∧
      SlotInstr (twoNames (longName 'b') (longName 'c')).toBytecodeChunk 3 ∧
      (pscalLinkGlobalSlots noTables (twoNames (longName 'b') (longName 'c'))).1.u16 1 =
        (pscalLinkGlobalSlots noTables (twoNames (longName 'b') (longName 'c'))).1.u16 4 ∧
      fieldName (twoNames (longName 'b') (longName 'c')).toBytecodeChunk 0 = some (longName 'b') ∧
      fieldName (twoNames (longName 'b') (longName 'c')).toBytecodeChunk 3 = some (longName 'c') ∧
      toLowerString (cString (longName 'b')) ≠ toLowerString (cString (longName 'c')) := by
  have hfirst : InstrStart (twoNames (longName 'b') (longName 'c')).toBytecodeChunk 0 :=
    .first (Nat.zero_lt_succ _)
  have hsecond : InstrStart (twoNames (longName 'b') (longName 'c')).toBytecodeChunk (0 + 3) :=
    hfirst.step rfl (by show 3 < 6; omega)
  have hname : slotName (longName 'c') = slotName (longName 'b') :=
    (slotName_longName (by decide)).trans (slotName_longName (by decide)).symm
  rw [pscalLinkGlobalSlots, if_neg (by decide), if_neg (by decide),
    show (twoNames (longName 'b') (longName 'c')).count = 6 from rfl,
    twoNames_linked hname]
  refine ⟨rfl, ⟨hfirst, _, rfl, rfl⟩, ⟨hsecond, _, rfl, rfl⟩, rfl, rfl, rfl, fun heq => ?_⟩
  rw [cString_longName (by decide), cString_longName (by decide)] at heq
  have hlast := congrArg (fun s => s.toList.getLast?) heq
  simp only [toLowerString, longName, String.toList_ofList, map_append, map_cons,
    map_nil, getLast?_concat] at hlast
  revert hlast
  decide

/-! ## a call that fails -/

/-- A chunk `c'` that a failed call leaves of `c`: the name fields before the instruction at `stop`
hold slots, and nothing else has changed. -/
structure LinkStopped (c c' : LinkChunk) (stop : Nat) : Prop where
  tables : c' = { c with code := c'.code }
  count : c'.count = c.count
  start : InstrStart c.toBytecodeChunk stop
  bytes : ∀ k, c'.byte k ≠ c.byte k →
    ∃ p, SlotInstr c.toBytecodeChunk p ∧ p + 3 ≤ stop ∧ (k = p + 1 ∨ k = p + 2)
  fields : ∃ names : List String, names.Nodup ∧ ∀ p, SlotInstr c.toBytecodeChunk p → p < stop →
    ∃ name, fieldName c.toBytecodeChunk p = some name ∧
      names[c'.u16 (p + 1)]? = some (slotName name)

theorem pscalLinkGlobalSlots_stopped (tables : GlobalTables) {chunk : LinkChunk}
    (herror : (pscalLinkGlobalSlots tables chunk).2 ≠ none) :
    ∃ stop, LinkStopped chunk (pscalLinkGlobalSlots tables chunk).1 stop := by
  unfold pscalLinkGlobalSlots at herror ⊢
  split at herror
  · exact absurd rfl herror
  · rename_i hunlinked
    rw [if_neg hunlinked]
    split at herror
    · exact absurd rfl herror
    · rename_i hcount
      rw [if_neg hcount]
      split at herror
      · rename_i code message hloop
        obtain ⟨names, stop, h, hlt⟩ := (linked_end rfl).2 code message hloop
        refine ⟨stop, ?_, h.count, h.start hlt, fun k hk => ?_, names, h.nodup, fun p hp hlt' =>
          (h.before p hp hlt').2⟩
        · show LinkChunk.mk code _ _ _ _ _ _ _ = _
          rw [h.tables]
        · by_contra hnone
          refine hk (h.kept k fun p hp hlt' => ?_)
          by_contra hin
          exact hnone ⟨p, hp, (h.before p hp hlt').1, by omega⟩
      · exact absurd rfl herror

/-- `GET_GSLOT total`, with the name at index 1, and a byte that is no opcode -/
def damagedChunk : LinkChunk :=
  { code := [101, 0, 1, 255]
    constants := [.str .string (some "count"), .str .string (some "total")] }

theorem pscalLinkGlobalSlots_stopped_damaged :
    ∃ stop, LinkStopped damagedChunk (pscalLinkGlobalSlots noTables damagedChunk).1 stop :=
  pscalLinkGlobalSlots_stopped noTables (by decide +kernel)

/-- the code of a failed call is not what it was -/
theorem pscalLinkGlobalSlots_rewrites : (pscalLinkGlobalSlots noTables damagedChunk).2 ≠ none ∧
    (pscalLinkGlobalSlots noTables damagedChunk).1.code ≠ damagedChunk.code :=
  ⟨by decide +kernel, by decide +kernel⟩

end Pscal
