import Pscal.Link.SlotsSpec
import Pscal.Verify.Stream

/-!
# The slot checks of a linked chunk

The verifier compares a slot operand with `global_slot_count` as an `int`, the VM
(`vm/vm.c`) with its cast to `uint16_t`.

* `vmSlotCheck`  the check of the four instructions in the VM;
* `SlotChecksPass`  a linked operand passes both checks;
* `slotChecksPass_iff`  they all pass when the instructions name fewer than `65536` globals;
* `manyGlobals`  a chunk that names `65536`.
-/

namespace Pscal

open BytecodeChunk List Option BytecodeChunk

/-! ## the check of the VM -/

/-- `GET_GSLOT`, `SET_GSLOT` and `GET_GSLOT_ADDRESS` go on past their check -/
def gslotInRange (chunk : LinkChunk) (slot : Nat) : Bool :=
  !(chunk.globalSlotCount % 65536 ≤ slot)

/-- `handleDefineGlobalSlot` goes on; the table of names is null when there are none -/
def defineGlobalSlotInRange (chunk : LinkChunk) (slot : Nat) : Bool :=
  !(chunk.globalSlotCount % 65536 ≤ slot || chunk.globalSlotNames.isEmpty)

def vmSlotCheck (chunk : LinkChunk) : OpCode → Nat → Bool
  | .defineGlobalSlot => defineGlobalSlotInRange chunk
  | _ => gslotInRange chunk

/-- the operand of the instruction at `p` passes the check of the verifier and that of the VM -/
structure SlotChecksPass (chunk : LinkChunk) (p : Nat) : Prop where
  verifier : ∀ ctx : VCtx, ctx.chunk = chunk.toBytecodeChunk → ∀ what,
    checkSlotIndex ctx (chunk.u16 (p + 1)) p what = .ok ()
  vm : ∀ op, chunk.opcode? p = some op → vmSlotCheck chunk op (chunk.u16 (p + 1)) = true

/-! ## the opcodes of a linked chunk -/

section
variable {c₀ c : BytecodeChunk} {names : List String} (h : Linked c₀ c names c₀.count)
include h

theorem Linked.opcode_end {pc : Nat} (hpc : InstrStart c₀ pc) : c.opcode? pc = c₀.opcode? pc := by
  refine congrArg OpCode.ofByte (h.kept pc fun p hp hlt => ?_)
  -- the name field of `p` ends before the next instruction
  obtain ⟨n, hdecode, hin⟩ := h.whole p hp.1 hlt
  obtain ⟨op, hop, hslot⟩ := hp.2
  have hlong := (decodeInstructionLength_slot hop hslot hin hin (fun _ _ _ _ => rfl) hdecode).1
  have hn : getInstructionLength c₀ p = n := congrArg DecodedLength.length hdecode
  rcases Nat.lt_or_ge p pc with hbefore | hafter
  · have := hp.1.apart hpc hbefore
    omega
  · omega

end

variable {c : BytecodeChunk} {chunk : LinkChunk} {p i : Nat}

theorem u16_congr {c' : BytecodeChunk} (h : c.code = c'.code) (pos : Nat) :
    c.u16 pos = c'.u16 pos := by
  simp only [u16, u8, byte, h]

theorem opcode_congr {c' : BytecodeChunk} (h : c.code = c'.code) (pc : Nat) :
    c.opcode? pc = c'.opcode? pc := by
  simp only [opcode?, byte, h]

theorem linked_of_ok (tables : GlobalTables) (hunlinked : chunk.globalsLinked = false)
    (hcount : chunk.count ≠ 0) (hok : (pscalLinkGlobalSlots tables chunk).2 = none) :
    ∃ code names, Linked chunk.toBytecodeChunk code names chunk.count ∧
      (pscalLinkGlobalSlots tables chunk).1.code = code.code ∧
      (pscalLinkGlobalSlots tables chunk).1.globalSlotCount = names.length ∧
      (pscalLinkGlobalSlots tables chunk).1.globalSlotNames = names := by
  unfold pscalLinkGlobalSlots at hok ⊢
  rw [if_neg (by rw [hunlinked]; decide), if_neg hcount] at hok ⊢
  split at hok
  · cases hok
  · rename_i code names hloop
    exact ⟨code, names, (linked_end rfl).1 code names hloop, rfl, rfl, rfl⟩

/-! ## how many globals a chunk names -/

/-- an instruction of the chunk refers to the global with that name -/
def NamesGlobal (chunk : BytecodeChunk) (x : String) : Prop :=
  ∃ p, SlotInstr chunk p ∧ (fieldName chunk p).map slotName = some x

def AtMostGlobals (chunk : BytecodeChunk) (n : Nat) : Prop :=
  ∀ names : List String, names.Nodup → (∀ x ∈ names, NamesGlobal chunk x) → names.length ≤ n

section
variable {c₀ c : BytecodeChunk} {names : List String} (h : Linked c₀ c names c₀.count)
include h

theorem Linked.namesGlobal_iff (x : String) : NamesGlobal c₀ x ↔ x ∈ names := by
  constructor
  · rintro ⟨p, hp, hname⟩
    obtain ⟨-, name, hfield, hslot⟩ := h.before p hp hp.1.lt
    rw [hfield, map_some] at hname
    rw [some.inj hname] at hslot
    exact mem_of_getElem? hslot
  · intro hx
    obtain ⟨i, hi, rfl⟩ := mem_iff_getElem.mp hx
    obtain ⟨p, hp, -, hslot⟩ := h.used i hi
    obtain ⟨-, name, hfield, hname⟩ := h.before p hp hp.1.lt
    rw [hslot, getElem?_eq_getElem hi] at hname
    exact ⟨p, hp, by rw [hfield, map_some, some.inj hname]⟩

theorem Linked.atMostGlobals_iff (n : Nat) : AtMostGlobals c₀ n ↔ names.length ≤ n := by
  constructor
  · intro hn
    exact hn names h.nodup fun x hx => (h.namesGlobal_iff x).mpr hx
  · intro hn names' hnodup hnames
    have hsub : names' ⊆ names := fun x hx => (h.namesGlobal_iff x).mp (hnames x hx)
    exact Nat.le_trans (List.Nodup.subperm hnodup hsub).length_le hn

theorem Linked.slot_lt {p : Nat} (hp : SlotInstr c₀ p) : c.u16 (p + 1) < names.length := by
  obtain ⟨-, name, -, hslot⟩ := h.before p hp hp.1.lt
  exact (List.getElem?_eq_some_iff.mp hslot).1

end

theorem atMostGlobals_empty {chunk : BytecodeChunk} (h : chunk.count = 0) (n : Nat) :
    AtMostGlobals chunk n := by
  intro names _ hnames
  cases names with
  | nil => exact Nat.zero_le n
  | cons x names =>
    obtain ⟨p, hp, -⟩ := hnames x mem_cons_self
    have := hp.1.lt
    omega

theorem gslotInRange_iff {slot : Nat} :
    gslotInRange chunk slot = true ↔ slot < chunk.globalSlotCount % 65536 := by
  rw [gslotInRange, Bool.not_eq_true', decide_eq_false_iff_not, Nat.not_le]

theorem vmSlotCheck_wrapped (h : chunk.globalSlotCount = 65536) (op : OpCode) (slot : Nat) :
    vmSlotCheck chunk op slot = false := by
  have hle : decide (chunk.globalSlotCount % 65536 ≤ slot) = true := by
    rw [h]
    exact decide_eq_true (Nat.zero_le slot)
  unfold vmSlotCheck
  split
  · rw [defineGlobalSlotInRange, hle]
    rfl
  · rw [gslotInRange, hle]
    rfl

theorem slotChecksPass_of_lt (hlt : chunk.u16 (p + 1) < chunk.globalSlotCount)
    (hcount : chunk.globalSlotCount < 65536)
    (hnames : chunk.globalSlotNames.length = chunk.globalSlotCount) : SlotChecksPass chunk p := by
  have hmod : chunk.globalSlotCount % 65536 = chunk.globalSlotCount := Nat.mod_eq_of_lt hcount
  refine ⟨fun ctx hctx what => checkSlotIndex_ok.mpr (hctx ▸ hlt), fun op _ => ?_⟩
  have hrange : gslotInRange chunk (chunk.u16 (p + 1)) = true :=
    gslotInRange_iff.mpr (by rw [hmod]; exact hlt)
  have htable : chunk.globalSlotNames.isEmpty = false := by
    cases hnil : chunk.globalSlotNames with
    | nil =>
      rw [hnil, length_nil] at hnames
      omega
    | cons x l => rfl
  unfold vmSlotCheck
  split
  · rw [defineGlobalSlotInRange, htable, Bool.or_false]
    exact hrange
  · exact hrange

/-- Every operand a call has written passes the check of the verifier and the check of the VM, if
and only if the instructions name at most `65535` globals. -/
theorem slotChecksPass_iff (tables : GlobalTables) {chunk : LinkChunk}
    (hunlinked : chunk.globalsLinked = false) (hok : (pscalLinkGlobalSlots tables chunk).2 = none) :
    (∀ p, SlotInstr chunk.toBytecodeChunk p →
        SlotChecksPass (pscalLinkGlobalSlots tables chunk).1 p) ↔
      AtMostGlobals chunk.toBytecodeChunk 65535 := by
  by_cases hcount : chunk.count = 0
  · refine ⟨fun _ => atMostGlobals_empty hcount _, fun _ p hp => ?_⟩
    have := hp.1.lt
    omega
  obtain ⟨code, names, h, hcode, hslots, hnames⟩ := linked_of_ok tables hunlinked hcount hok
  generalize (pscalLinkGlobalSlots tables chunk).1 = c' at hcode hslots hnames ⊢
  rw [h.atMostGlobals_iff]
  constructor
  · intro hpass
    have hmax := names_length_le h.nodup fun x hx => h.mem_names hx
    by_contra hgt
    obtain ⟨p, hp, -, -⟩ := h.used 0 (by omega)
    obtain ⟨op, hop, -⟩ := hp.2
    have hop' : c'.opcode? p = some op :=
      (opcode_congr hcode p).trans ((h.opcode_end hp.1).trans hop)
    have hcheck := (hpass p hp).vm op hop'
    rw [vmSlotCheck_wrapped (by omega)] at hcheck
    cases hcheck
  · intro hfew p hp
    have hlt := h.slot_lt hp
    exact slotChecksPass_of_lt (by rw [u16_congr hcode, hslots]; exact hlt) (by omega)
      (by rw [hnames, hslots])

theorem slotChecksPass_total : (∀ p, SlotInstr totalChunk.toBytecodeChunk p →
        SlotChecksPass (pscalLinkGlobalSlots noTables totalChunk).1 p) ↔
      AtMostGlobals totalChunk.toBytecodeChunk 65535 :=
  slotChecksPass_iff noTables rfl (by decide +kernel)

/-! ## a chunk with a global for every 16-bit index -/

def letter (d : Nat) : Char := Char.ofNat (97 + d)

def globalName (i : Nat) : String :=
  String.ofList [letter (i / 4096 % 16), letter (i / 256 % 16), letter (i / 16 % 16),
    letter (i % 16)]

theorem letter_facts : ∀ d, d < 16 → (letter d).toLower = letter d ∧ letter d ≠ '\x00' ∧
    ∀ e, e < 16 → letter d = letter e → d = e := by
  decide +kernel

theorem slotName_globalName (i : Nat) : slotName (globalName i) = globalName i := by
  have h : ∀ n, (letter (n % 16)).toLower = letter (n % 16) ∧ letter (n % 16) ≠ '\x00' := fun n =>
    ⟨(letter_facts _ (Nat.mod_lt n (by decide))).1, (letter_facts _ (Nat.mod_lt n (by decide))).2.1⟩
  have hstring : cString (globalName i) = globalName i := by
    rw [cString, globalName, String.toList_ofList, takeWhile_eq_self_iff.mpr]
    simp only [forall_mem_cons, decide_eq_true_eq]
    exact ⟨(h _).2, (h _).2, (h _).2, (h _).2, by simp⟩
  rw [slotName, hstring, truncateTo, toLowerString, globalName, String.toList_ofList,
    String.toList_ofList, maxSymbolLength, take_of_length_le (show 4 ≤ 255 by decide)]
  simp only [map_cons, map_nil, (h _).1]

theorem globalName_injective {j : Nat} (hi : i < 65536) (hj : j < 65536)
    (h : globalName i = globalName j) : i = j := by
  have hdigit : ∀ m n, letter (m % 16) = letter (n % 16) → m % 16 = n % 16 := fun m n =>
    (letter_facts _ (Nat.mod_lt m (by decide))).2.2 _ (Nat.mod_lt n (by decide))
  have hlist := congrArg String.toList h
  rw [globalName, globalName, String.toList_ofList, String.toList_ofList] at hlist
  simp only [cons.injEq, and_true] at hlist
  have h₁ := hdigit _ _ hlist.1
  have h₂ := hdigit _ _ hlist.2.1
  have h₃ := hdigit _ _ hlist.2.2.1
  have h₄ := hdigit _ _ hlist.2.2.2
  omega

/-- `GET_GSLOT` of each of 65536 globals -/
def manyGlobals : LinkChunk where
  code := (List.range (3 * 65536)).map fun k =>
    if k % 3 = 0 then 101 else if k % 3 = 1 then UInt8.ofNat (k / 3 / 256) else UInt8.ofNat (k / 3)
  constants := (List.range 65536).map fun i => .str .string (some (globalName i))

theorem count_manyGlobals : manyGlobals.count = 3 * 65536 := by
  rw [BytecodeChunk.count, manyGlobals, length_map, length_range]

theorem byte_manyGlobals {k : Nat} (h : k < 3 * 65536) : manyGlobals.byte k =
    if k % 3 = 0 then 101 else if k % 3 = 1 then UInt8.ofNat (k / 3 / 256)
      else UInt8.ofNat (k / 3) := by
  rw [byte, manyGlobals, getD_eq_getElem?_getD, getElem?_map, getElem?_range h]
  rfl

theorem opcode_manyGlobals (h : i < 65536) : manyGlobals.opcode? (3 * i) = some .getGslot := by
  have hbyte : manyGlobals.byte (3 * i) = 101 := by
    rw [byte_manyGlobals (by omega), if_pos (by omega)]
  exact congrArg OpCode.ofByte hbyte

theorem fieldName_manyGlobals (h : i < 65536) :
    fieldName manyGlobals.toBytecodeChunk (3 * i) = some (globalName i) := by
  have hindex : manyGlobals.u16 (3 * i + 1) = i := by
    rw [u16, u8, u8, byte_manyGlobals (by omega),
      byte_manyGlobals (by omega), if_neg (by omega), if_pos (by omega), if_neg (by omega),
      if_neg (by omega), UInt8.toNat_ofNat', UInt8.toNat_ofNat']
    omega
  rw [fieldName, hindex, linkResolveName, manyGlobals, getElem?_map, getElem?_range h]
  rfl

theorem getInstructionLength_getGslot {chunk : BytecodeChunk} (hlt : p < chunk.count)
    (hop : chunk.opcode? p = some .getGslot) : getInstructionLength chunk p = 3 :=
  congrArg DecodedLength.length (decodeInstructionLength_of_fixed (n := 2) hlt hop rfl)

theorem instrStart_manyGlobals (h : InstrStart manyGlobals.toBytecodeChunk p) :
    ∃ i, i < 65536 ∧ p = 3 * i := by
  have hcount := count_manyGlobals
  induction h with
  | first hlt => exact ⟨0, by decide, rfl⟩
  | next hpc hlt ih =>
    obtain ⟨i, hi, rfl⟩ := ih
    have hlen : getInstructionLength manyGlobals.toBytecodeChunk (3 * i) = 3 :=
      getInstructionLength_getGslot hpc.lt (opcode_manyGlobals hi)
    rw [hlen] at hlt ⊢
    exact ⟨i + 1, by omega, by omega⟩

theorem slotInstr_manyGlobals (h : i < 65536) : SlotInstr manyGlobals.toBytecodeChunk (3 * i) := by
  have hcount := count_manyGlobals
  refine ⟨?_, .getGslot, opcode_manyGlobals h, rfl⟩
  induction i with
  | zero => exact .first (by omega)
  | succ i ih =>
    have hlt : 3 * i < manyGlobals.count := by omega
    have hlen : getInstructionLength manyGlobals.toBytecodeChunk (3 * i) = 3 :=
      getInstructionLength_getGslot hlt (opcode_manyGlobals (by omega))
    exact InstrStart.step (ih (by omega)) hlen (show 3 * i + 3 < _ by omega)

theorem linkLoop_getGslots {c₀ : BytecodeChunk}
    (hall : ∀ p, InstrStart c₀ p → c₀.opcode? p = some .getGslot ∧ p + 3 ≤ c₀.count ∧ ∃ name,
      fieldName c₀ p = some name) (room : Nat) {names : List String} {pc : Nat}
    (h : Linked c₀ c names pc) : ∃ c' names', linkLoop room c names pc = (c', .ok names') := by
  induction room generalizing c names pc with
  | zero => exact ⟨c, names, rfl⟩
  | succ room ih =>
    rw [linkLoop]
    by_cases hlt : pc < c.count
    · have hlt' : pc < c₀.count := h.count ▸ hlt
      obtain ⟨hop, hin, name, hname⟩ := hall pc (h.start hlt')
      have hstep := linkInstruction_getGslot (h.opcode?.trans hop) (h.count.symm ▸ hin)
        (h.fieldName.trans hname) names
      rw [if_pos hlt, hstep]
      exact ih (linked_step h hlt' (linkInstruction_cases hlt hstep)).2
    · rw [if_neg hlt]
      exact ⟨c, names, rfl⟩

theorem manyGlobals_linked : (pscalLinkGlobalSlots noTables manyGlobals).2 = none := by
  have hcount := count_manyGlobals
  obtain ⟨c', names, hloop⟩ := linkLoop_getGslots (fun p hp => by
    obtain ⟨i, hi, rfl⟩ := instrStart_manyGlobals hp
    exact ⟨opcode_manyGlobals hi, by omega, _, fieldName_manyGlobals hi⟩)
    manyGlobals.count (linked_start manyGlobals.toBytecodeChunk)
  have hunlinked : ¬ manyGlobals.globalsLinked = true := Bool.false_ne_true
  rw [pscalLinkGlobalSlots, if_neg hunlinked, if_neg (by omega), hloop]

/-- the VM refuses the slots of a chunk that is linked and whose slots the verifier accepts -/
theorem slotChecksPass_manyGlobals : (pscalLinkGlobalSlots noTables manyGlobals).2 = none ∧
      ∀ i, i < 65536 → SlotInstr manyGlobals.toBytecodeChunk (3 * i) ∧
        (pscalLinkGlobalSlots noTables manyGlobals).1.u16 (3 * i + 1)
          < (pscalLinkGlobalSlots noTables manyGlobals).1.globalSlotCount ∧
        vmSlotCheck (pscalLinkGlobalSlots noTables manyGlobals).1 .getGslot
          ((pscalLinkGlobalSlots noTables manyGlobals).1.u16 (3 * i + 1)) = false := by
  have hcount := count_manyGlobals
  obtain ⟨code, names, h, hcode, hslots, -⟩ := linked_of_ok noTables rfl (show manyGlobals.count ≠ 0 by omega)
    manyGlobals_linked
  have hmax := names_length_le h.nodup fun x hx => h.mem_names hx
  have hall : ∀ x ∈ (List.range 65536).map globalName, x ∈ names := by
    intro x hx
    obtain ⟨i, hi, rfl⟩ := List.mem_map.mp hx
    have hi := mem_range.mp hi
    refine (h.namesGlobal_iff _).mp ⟨3 * i, slotInstr_manyGlobals hi, ?_⟩
    rw [fieldName_manyGlobals hi, map_some, slotName_globalName]
  have hnodup : ((List.range 65536).map globalName).Nodup := by
    refine Nodup.map_on (fun i hi j hj heq => ?_) nodup_range
    exact globalName_injective (mem_range.mp hi) (mem_range.mp hj) heq
  have hmin := (List.Nodup.subperm hnodup hall).length_le
  rw [length_map, length_range] at hmin
  refine ⟨manyGlobals_linked, fun i hi => ⟨slotInstr_manyGlobals hi, ?_, ?_⟩⟩
  · rw [hslots, u16_congr hcode]
    exact h.slot_lt (slotInstr_manyGlobals hi)
  · exact vmSlotCheck_wrapped (by omega) _ _

end Pscal
