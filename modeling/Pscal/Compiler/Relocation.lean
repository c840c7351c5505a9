import Pscal.Compiler.EmitSpec
import Pscal.Compiler.PeepholeTables
import Pscal.Compiler.Sequences

/-!
# Relocation

What the pass does to the code addresses of a compile, and to its other constants.

* `Emitter.optimize_cases`  the pass changes nothing, or moves everything it knows of;
* `RelocationComplete`  every stored address is the new offset of its instruction;
* `relocationComplete_iff`  when it is;
* `LiteralsKept`  every constant the program uses for its value keeps it;
* `literalsKept_iff`  when they do.
-/

namespace Pscal

open List Option

/-! ## addresses are boundaries -/

variable {a w : Nat} {rw : Rewrite} {st : Emitter}

theorem AfterJump.boundary {chunk : BytecodeChunk} (hwhole : Whole chunk) (h : AfterJump chunk a) :
    ∃ w, Boundary chunk a w := by
  obtain ⟨j, hj, hop, rfl⟩ := h
  obtain ⟨w, hb, hplain⟩ := boundary_of_opcode hwhole.layout hj hop rfl
  have hlen : getInstructionLength chunk j = 1 + 4 := getInstructionLength_of_fixed hj.lt hop rfl
  have hnext := hb.next hj.lt
  rw [pieceAt_plain hplain] at hnext
  exact ⟨_, by rwa [show j + 5 = j + getInstructionLength chunk j by omega]⟩

theorem mappedAddress_boundary {chunk : BytecodeChunk} (h : Rewritten chunk rw)
    (hlayout : Layout chunk) (hb : Boundary chunk a w) :
    mappedAddress chunk.count rw.offsetMap a = w := by
  have hle := (hb.le hlayout).1
  have hmin : min (a : Int).toNat chunk.count = a := by
    rw [Int.toNat_natCast]
    omega
  rw [mappedAddress, hmin, h.boundary hlayout hb]
  rfl

theorem mappedAddress_nonpos {chunk : BytecodeChunk} (h : Rewritten chunk rw)
    (hlayout : Layout chunk) {a : Int} (ha : a ≤ 0) :
    mappedAddress chunk.count rw.offsetMap a = 0 := by
  have hmin : min a.toNat chunk.count = 0 := by omega
  rw [mappedAddress, hmin, h.boundary hlayout .start]
  rfl

theorem stays_of_not_shortens {chunk : BytecodeChunk} (hlayout : Layout chunk)
    (h : ¬ Shortens chunk) (hb : Boundary chunk a w) : Stays chunk a := by
  refine (stays_iff hlayout).mpr ⟨⟨w, hb⟩, fun p q hp hlt => ?_⟩
  have hle := (hb.le hlayout).1
  exact Bool.eq_false_iff.mpr fun hfused => h ⟨p, q, hp, by omega, hfused⟩

/-! ## the pass on a compile -/

namespace Emitter

variable (st : Emitter)

def addressOf (r : SymbolRef) : Nat := (st.procedures.heap r).bytecodeAddress.toNat

/-- the pass visits the symbol: it is in a bucket of the global table, and no alias -/
def Relocates (r : SymbolRef) : Prop :=
  r ∈ st.procedures.table.top ∧ resolveSymbolAlias st.procedures.heap r = r

instance (r : SymbolRef) : Decidable (st.Relocates r) := inferInstanceAs (Decidable (_ ∧ _))

end Emitter

/-- what the pass leaves of a compile when it shortens something -/
structure Optimized (st : Emitter) (starts : List Nat) (rw : Rewrite) (result : PeepholeResult) :
    Prop where
  rewritten : Rewritten st.chunk rw
  code : FinalCode st.chunk starts rw result.chunk.code
  heap : result.procedures.heap =
    relocateSymbols st.chunk.count rw.offsetMap st.procedures.heap st.procedures.table.top
  table : result.procedures.table = st.procedures.table
  constants : result.chunk.constants =
    relocateConstants st.chunk.count rw.offsetMap result.procedures st.entries st.chunk.constants

theorem Emitter.optimize_cases (h : Emitted st) :
    (¬ Shortens st.chunk ∧ st.optimize = ⟨st.chunk, st.procedures, false⟩) ∨
      Shortens st.chunk ∧ ∃ starts rw, Optimized st starts rw st.optimize := by
  have hlayout := h.whole.layout
  unfold Emitter.optimize applyPeepholeOptimizations
  by_cases hzero : st.chunk.count = 0
  · refine .inl ⟨?_, by rw [if_pos hzero]⟩
    rintro ⟨r, -, -, hlt, -⟩
    omega
  · rw [if_neg hzero]
    obtain ⟨starts, hstarts⟩ := instructionStarts_of_layout hlayout st.chunk.count 0
      fun hpos => .first hpos
    have hspec := rewriteCode_spec hlayout
    rw [hstarts]
    dsimp only
    by_cases hchanged : (rewriteCode st.chunk).changed = false
    · refine .inl ⟨fun hshort => ?_, by rw [if_pos hchanged]⟩
      rw [hspec.changed.mpr hshort] at hchanged
      cases hchanged
    · rw [if_neg hchanged]
      have hshort : Shortens st.chunk := hspec.changed.mp (Bool.not_eq_false _ ▸ hchanged)
      exact .inr ⟨hshort, starts, rewriteCode st.chunk,
        ⟨hspec, finalCode_spec hlayout starts hspec, rfl, rfl, rfl⟩⟩

section
variable {st : Emitter} {starts : List Nat} {rw : Rewrite} {result : PeepholeResult}
  (hst : Emitted st) (h : Optimized st starts rw result)
include hst h

theorem Optimized.routine {r : SymbolRef} {a w : Nat}
    (hdef : (st.procedures.heap r).isDefined = true)
    (ha : (st.procedures.heap r).bytecodeAddress = a) (hb : Boundary st.chunk a w) :
    (result.procedures.heap r).bytecodeAddress = (if st.Relocates r then w else a : Nat) := by
  have hlayout := hst.whole.layout
  have hle := (hb.le hlayout).1
  rw [h.heap]
  by_cases htop : r ∈ st.procedures.table.top
  · obtain ⟨hmoved, hkept⟩ := @relocateSymbols_of_mem st.chunk.count rw.offsetMap
      st.procedures.heap _ _ hst.nodup htop
    by_cases halias : resolveSymbolAlias st.procedures.heap r = r
    · rw [hmoved ⟨halias, hdef, by omega, by omega⟩, if_pos ⟨htop, halias⟩]
      show (mappedAddress _ _ (st.procedures.heap r).bytecodeAddress : Int) = _
      rw [ha, mappedAddress_boundary h.rewritten hlayout hb]
    · rw [hkept fun hm => halias hm.1, if_neg fun hr => halias hr.2, ha]
  · rw [relocateSymbols_of_notMem _ _ htop, if_neg fun hr => htop hr.1, ha]

theorem Optimized.entry_routine {e : AddressConstantEntry} {r : SymbolRef}
    (hr : entryRoutine st.procedures e = some r) : ∃ w, Boundary st.chunk (st.addressOf r) w ∧
      (st.procedures.heap r).bytecodeAddress = st.addressOf r ∧
      entryAddress st.chunk.count rw.offsetMap result.procedures e =
        (if st.Relocates r then w else st.addressOf r : Nat) := by
  obtain ⟨hdef, hpos⟩ := entryRoutine_usable hr
  have hcompiled : r ∈ st.compiled := by
    by_contra hnot
    rw [(hst.others r hnot).1] at hdef
    cases hdef
  obtain ⟨-, a, ha, hjump⟩ := hst.compiled r hcompiled
  obtain ⟨w, hb⟩ := hjump.boundary hst.whole
  have haddr : st.addressOf r = a := by
    rw [Emitter.addressOf, ha]
    rfl
  have hsame := sameRoutes_relocateSymbols st.chunk.count rw.offsetMap st.procedures.heap
    st.procedures.table.top
  rw [← h.heap] at hsame
  rw [haddr]
  refine ⟨w, hb, ha, ?_⟩
  rw [entryAddress_eq, entryRoutine_congr hsame h.table, hr]
  exact h.routine hst hdef ha hb

omit hst in
theorem Optimized.entry_plain {e : AddressConstantEntry}
    (hr : entryRoutine st.procedures e = none) :
    entryAddress st.chunk.count rw.offsetMap result.procedures e =
      mappedAddress st.chunk.count rw.offsetMap e.originalAddress := by
  have hsame := sameRoutes_relocateSymbols st.chunk.count rw.offsetMap st.procedures.heap
    st.procedures.table.top
  rw [← h.heap] at hsame
  rw [entryAddress_eq, entryRoutine_congr hsame h.table, hr]

end

/-! ## every stored address -/

/-- the chunk after the pass holds `v` at a place of the chunk before it -/
def AddressPlace.HoldsAfter (chunk chunk' : BytecodeChunk) (v : Nat) : AddressPlace → Prop
  | .operand offset => ∃ w, Boundary chunk offset w ∧
      chunk'.opcode? w = some .threadCreate ∧ chunk'.i32 (w + 1) = v
  | .immediate offset => ∃ w, Boundary chunk offset w ∧ immediateAt chunk' w = some (v : Int)
  | .constant index => chunk'.constants[index]? = some (.scalar .int32 v)
  | .element index i => ∃ elems, chunk'.constants[index]? = some (.array .int32 elems) ∧
      elems[i]? = some (.scalar .int32 v)

/-- every stored code address is the new offset of the instruction it named -/
structure RelocationComplete (st : Emitter) : Prop where
  routines : ∀ r ∈ st.compiled, ∃ w, Boundary st.chunk (st.addressOf r) w ∧
    (st.optimize.procedures.heap r).bytecodeAddress = w
  addresses : ∀ p ∈ st.addresses, ∃ w, Boundary st.chunk p.2 w ∧
    p.1.HoldsAfter st.chunk st.optimize.chunk w

/-- the note at a place gives it the new offset of `a` -/
def Emitter.NoteReaches (st : Emitter) (a : Nat) (e : AddressConstantEntry) : Prop :=
  ∀ r, entryRoutine st.procedures e = some r →
    if st.Relocates r then st.addressOf r = a else Boundary st.chunk a (st.addressOf r)

/-- the addresses the pass does not know of stay in place -/
structure Relocatable (st : Emitter) : Prop where
  routines : ∀ r ∈ st.compiled, st.Relocates r ∨ Stays st.chunk (st.addressOf r)
  immediates : ∀ offset a, (AddressPlace.immediate offset, a) ∈ st.addresses → Stays st.chunk a
  constants : ∀ i a, (AddressPlace.constant i, a) ∈ st.addresses →
    match lastEntry st.entries i none with
    | some e => st.NoteReaches a e
    | none => Stays st.chunk a
  elements : ∀ i j a, (AddressPlace.element i j, a) ∈ st.addresses →
    lastEntry st.entries i (some j) = none → Stays st.chunk a

/-- the image of an instruction that no sequence contains, as long as the pass writes no operand
into it -/
theorem copied_byte {chunk : BytecodeChunk} {starts : List Nat} {code : List UInt8}
    (hlayout : Layout chunk) (h : FinalCode chunk starts rw code) {r i : Nat}
    (hb : Boundary chunk r w) (hstart : InstrStart chunk r)
    (hplain : (pieceAt chunk r).fused = false) (hi : i < getInstructionLength chunk r)
    (hkept : operandAt chunk starts rw.offsetMap r w = none ∨ i = 0) :
    code.getD (w + i) 0 = chunk.byte (r + i) := by
  have hin := hlayout r hstart
  have hpiece := pieceAt_plain hplain
  have hout : (pieceAt chunk r).out = codeBytes chunk r (getInstructionLength chunk r) := by
    rw [hpiece]
  have hlen : (pieceAt chunk r).out.length = getInstructionLength chunk r := by
    rw [hout, codeBytes_length hin]
  have hcopied := h.copied r w hb hstart.lt i (by omega) (.inr hkept)
  rw [getD_eq_getElem?_getD, hcopied, hout, codeBytes, getElem?_take, if_pos hi,
    getElem?_drop, ← getD_eq_getElem?_getD]
  rfl

section
variable {st : Emitter} {starts : List Nat} {rw : Rewrite} {result : PeepholeResult}
  (hst : Emitted st) (h : Optimized st starts rw result)
include hst h

theorem Optimized.operand {offset a w : Nat}
    (hplace : (AddressPlace.operand offset).Holds st.chunk a) (hb : Boundary st.chunk a w) :
    (AddressPlace.operand offset).HoldsAfter st.chunk result.chunk w := by
  have hlayout := hst.whole.layout
  obtain ⟨hstart, hop, ha⟩ := hplace
  obtain ⟨w', hb', hplain⟩ := boundary_of_opcode hlayout hstart hop rfl
  have hend := hst.whole.end_le (n := 4) hstart hop rfl
  have hle := hb.le hlayout
  have hsize := hst.size
  have hoperand : operandAt st.chunk starts rw.offsetMap offset w' = some (w : Int) := by
    rw [operandAt, if_pos (by omega), hop]
    dsimp only
    rw [ha, mappedAddress_boundary h.rewritten hlayout hb]
  refine ⟨w', hb', ?_, ?_⟩
  · have hlen : getInstructionLength st.chunk offset = 1 + 4 :=
      getInstructionLength_of_fixed hstart.lt hop rfl
    have hbyte := copied_byte hlayout h.code hb' hstart hplain (i := 0) (by omega) (.inr rfl)
    rw [← hop, BytecodeChunk.opcode?, BytecodeChunk.opcode?]
    exact congrArg OpCode.ofByte hbyte
  · exact i32_of_int32Bytes (h.code.operand offset w' _ hb' hstart.lt hplain hoperand)
      (by omega) (by omega)

theorem Optimized.immediate {offset : Nat} {v : Int} (hstart : InstrStart st.chunk offset)
    (hv : immediateAt st.chunk offset = some v) :
    ∃ w, Boundary st.chunk offset w ∧ immediateAt result.chunk w = some v := by
  have hlayout := hst.whole.layout
  have himmediate : ∃ op, st.chunk.opcode? offset = some op ∧ op.inSequence = false ∧
      op ≠ .jump ∧ op ≠ .jumpIfFalse ∧ op ≠ .threadCreate := by
    unfold immediateAt at hv
    split at hv
    · rename_i hop
      exact ⟨_, hop, rfl, nofun, nofun, nofun⟩
    · rename_i hop
      exact ⟨_, hop, rfl, nofun, nofun, nofun⟩
    · rename_i hop
      exact ⟨_, hop, rfl, nofun, nofun, nofun⟩
    · cases hv
  obtain ⟨op, hop, hseq, hjump, hjump', hthread⟩ := himmediate
  obtain ⟨w, hb, hplain⟩ := boundary_of_opcode hlayout hstart hop hseq
  have hnone : operandAt st.chunk starts rw.offsetMap offset w = none := by
    rw [operandAt, hop]
    split
    · split
      · rename_i heq
        exact absurd (some.inj heq) hjump
      · rename_i heq
        exact absurd (some.inj heq) hjump'
      · rename_i heq
        exact absurd (some.inj heq) hthread
      · rfl
    · rfl
  have hbyte : ∀ i, i < getInstructionLength st.chunk offset →
      result.chunk.byte (w + i) = st.chunk.byte (offset + i) := fun i hi =>
    copied_byte hlayout h.code hb hstart hplain hi (.inl hnone)
  have hop' : result.chunk.opcode? w = st.chunk.opcode? offset :=
    congrArg OpCode.ofByte (hbyte 0 (decodeInstructionLength_pos st.chunk offset))
  refine ⟨w, hb, ?_⟩
  rw [immediateAt, hop', ← hv, immediateAt]
  split
  · rfl
  · rfl
  · rename_i hop₂
    have hlen : getInstructionLength st.chunk offset = 1 + 1 :=
      getInstructionLength_of_fixed hstart.lt hop₂ rfl
    rw [BytecodeChunk.u8, BytecodeChunk.u8, hbyte 1 (by omega)]
  · rfl

end

theorem setIntBits_address {n : Nat} (h : n < 2 ^ 31) : setIntBits .int32 n = n := by
  rw [setIntBits]
  omega

section
variable {st : Emitter} {starts : List Nat} {rw : Rewrite} {result : PeepholeResult}
  (hst : Emitted st) (h : Optimized st starts rw result)
include hst h

/-- a note of the address `a` gives its place the new offset exactly when `NoteReaches` -/
theorem Optimized.note {e : AddressConstantEntry} {a w : Nat} (ha : e.originalAddress = a)
    (hb : Boundary st.chunk a w) : ∃ n : Nat, n < 2 ^ 31 ∧
      entryAddress st.chunk.count rw.offsetMap result.procedures e = n ∧
      (n = w ↔ st.NoteReaches a e) := by
  have hlayout := hst.whole.layout
  have hsize := hst.size
  have hle := hb.le hlayout
  cases hr : entryRoutine st.procedures e with
  | none =>
    refine ⟨w, by omega, ?_, fun _ r hr' => ?_, fun _ => rfl⟩
    · rw [h.entry_plain hr, ha, mappedAddress_boundary h.rewritten hlayout hb]
    · rw [hr] at hr'
      cases hr'
  | some r =>
    obtain ⟨w', hb', -, haddr⟩ := h.entry_routine hst hr
    have hle' := hb'.le hlayout
    refine ⟨_, ?_, haddr, fun hn r' hr' => ?_, fun hreach => ?_⟩
    · split <;> omega
    · rw [hr] at hr'
      cases hr'
      split
      · rename_i hrel
        rw [if_pos hrel] at hn
        exact hb'.injective hlayout hb hn
      · rename_i hrel
        rw [if_neg hrel] at hn
        rw [hn]
        exact hb
    · have hreach := hreach r hr
      split at hreach
      · rename_i hrel
        rw [if_pos hrel]
        exact hb'.unique hb hreach
      · rename_i hrel
        rw [if_neg hrel]
        exact hreach.unique hb rfl

theorem Optimized.constant {i a w : Nat}
    (hplace : (AddressPlace.constant i).Holds st.chunk a) (hb : Boundary st.chunk a w) :
    (AddressPlace.constant i).HoldsAfter st.chunk result.chunk w ↔
      match lastEntry st.entries i none with
      | some e => st.NoteReaches a e
      | none => Stays st.chunk a := by
  have hvalue := relocateConstants_scalar st.chunk.count rw.offsetMap result.procedures
    st.entries hplace
  rw [← h.constants] at hvalue
  show result.chunk.constants[i]? = _ ↔ _
  rw [hvalue]
  cases he : lastEntry st.entries i none with
  | none =>
    constructor
    · intro heq
      have haw : a = w := by
        injection heq with heq
        injection heq with _ heq
        omega
      rwa [← haw] at hb
    · intro hstays
      rw [hstays.unique hb rfl]
  | some e =>
    obtain ⟨hmem, hi, hnone⟩ := lastEntry_mem he
    have hpooled := (hst.entries e hmem).pooled hnone
    rw [hi, show st.chunk.constants[i]? = some (.scalar .int32 a) from hplace] at hpooled
    have horiginal : e.originalAddress = a := by
      unfold intConstant at hpooled
      split at hpooled
      · injection hpooled with heq
        injection heq with _ heq
        exact heq.symm
      · injection hpooled with heq
        injection heq with heq
        cases heq
    obtain ⟨n, hn, haddr, hiff⟩ := h.note hst horiginal hb
    dsimp only
    rw [haddr, setIntBits_address hn, ← hiff]
    constructor
    · intro heq
      injection heq with heq
      injection heq with _ heq
      omega
    · rintro rfl
      rfl

theorem Optimized.element {i j a w : Nat}
    (hplace : (AddressPlace.element i j).Holds st.chunk a) (hb : Boundary st.chunk a w) :
    (AddressPlace.element i j).HoldsAfter st.chunk result.chunk w ↔
      (lastEntry st.entries i (some j) = none → Stays st.chunk a) := by
  obtain ⟨elems, harray, helem⟩ := hplace
  obtain ⟨elems', harray', helem'⟩ := relocateConstants_element st.chunk.count rw.offsetMap
    result.procedures st.entries harray helem
  rw [← h.constants] at harray'
  have hafter : (AddressPlace.element i j).HoldsAfter st.chunk result.chunk w ↔
      elems'[j]? = some (.scalar .int32 w) := by
    constructor
    · rintro ⟨elems₂, harray₂, helem₂⟩
      rw [harray'] at harray₂
      cases harray₂
      exact helem₂
    · exact fun helem₂ => ⟨elems', harray', helem₂⟩
  rw [hafter, helem']
  cases he : lastEntry st.entries i (some j) with
  | none =>
    constructor
    · intro heq _
      have haw : a = w := by
        injection heq with heq
        injection heq with _ heq
        omega
      rwa [← haw] at hb
    · intro hstays
      rw [(hstays rfl).unique hb rfl]
  | some e =>
    obtain ⟨hmem, hi, hj⟩ := lastEntry_mem he
    obtain ⟨hname, href, -, elems₂, harray₂, helem₂⟩ := (hst.entries e hmem).element j hj
    rw [hi, harray] at harray₂
    cases harray₂
    rw [helem] at helem₂
    have horiginal : e.originalAddress = a := by
      injection helem₂ with heq
      injection heq with _ heq
      exact heq.symm
    obtain ⟨n, hn, haddr, hiff⟩ := h.note hst horiginal hb
    have hplain : entryRoutine st.procedures e = none := by
      unfold entryRoutine namedTarget
      rw [hname, href]
      rfl
    have hnw : n = w := hiff.mpr fun r hr => by
      rw [hplain] at hr
      cases hr
    dsimp only
    rw [haddr, setIntBits_address hn, hnw]
    exact ⟨nofun, fun _ => rfl⟩

end

theorem relocationComplete_of_not_shortens (hst : Emitted st) (hshort : ¬ Shortens st.chunk)
    (hsame : st.optimize = ⟨st.chunk, st.procedures, false⟩) : RelocationComplete st := by
  have hlayout := hst.whole.layout
  have hstays : ∀ a, AfterJump st.chunk a → Stays st.chunk a := fun a ha =>
    (ha.boundary hst.whole).elim fun _ hb => stays_of_not_shortens hlayout hshort hb
  have hplain : ∀ offset op, InstrStart st.chunk offset → st.chunk.opcode? offset = some op →
      op.inSequence = false → Stays st.chunk offset := fun offset op hstart hop hseq =>
    (boundary_of_opcode hlayout hstart hop hseq).elim fun _ hb =>
      stays_of_not_shortens hlayout hshort hb.1
  constructor
  · intro r hr
    obtain ⟨-, a, ha, hjump⟩ := hst.compiled r hr
    have haddr : st.addressOf r = a := by
      rw [Emitter.addressOf, ha]
      rfl
    rw [hsame, haddr]
    exact ⟨a, hstays a hjump, ha⟩
  · rintro ⟨place, a⟩ hp
    obtain ⟨hjump, hplace⟩ := hst.addresses _ hp
    refine ⟨a, hstays a hjump, ?_⟩
    rw [hsame]
    cases place with
    | operand offset =>
      obtain ⟨hstart, hop, ha⟩ := hplace
      exact ⟨offset, hplain offset _ hstart hop rfl, hop, ha⟩
    | immediate offset =>
      obtain ⟨hstart, ha⟩ := hplace
      refine ⟨offset, ?_, ha⟩
      unfold immediateAt at ha
      split at ha
      · rename_i hop
        exact hplain offset _ hstart hop rfl
      · rename_i hop
        exact hplain offset _ hstart hop rfl
      · rename_i hop
        exact hplain offset _ hstart hop rfl
      · cases ha
    | constant i => exact hplace
    | element i j => exact hplace

section
variable {st : Emitter} {starts : List Nat} {rw : Rewrite} (hst : Emitted st)
  (h : Optimized st starts rw st.optimize)
include hst h

theorem RelocationComplete.relocatable (hcomplete : RelocationComplete st) : Relocatable st := by
  refine ⟨fun r hr => ?_, fun offset a hp => ?_, fun i a hp => ?_, fun i j a hp => ?_⟩
  · obtain ⟨hdef, a, ha, -⟩ := hst.compiled r hr
    obtain ⟨w, hb, hw⟩ := hcomplete.routines r hr
    have haddr : st.addressOf r = a := by
      rw [Emitter.addressOf, ha]
      rfl
    rw [haddr] at hb ⊢
    by_cases hrel : st.Relocates r
    · exact .inl hrel
    · rw [h.routine hst hdef ha hb, if_neg hrel, Int.natCast_inj] at hw
      rw [hw]
      rw [hw] at hb
      exact .inr hb
  · obtain ⟨-, hstart, hv⟩ := hst.addresses _ hp
    obtain ⟨w, hb, w₂, hb₂, himm⟩ := hcomplete.addresses _ hp
    obtain ⟨w₃, hb₃, himm₃⟩ := h.immediate hst hstart hv
    rw [hb₂.unique hb₃ rfl, himm₃] at himm
    have haw : a = w := by
      injection himm with heq
      omega
    rw [haw]
    rw [haw] at hb
    exact hb
  · obtain ⟨-, hplace⟩ := hst.addresses _ hp
    obtain ⟨w, hb, hafter⟩ := hcomplete.addresses _ hp
    exact (h.constant hst hplace hb).mp hafter
  · obtain ⟨-, hplace⟩ := hst.addresses _ hp
    obtain ⟨w, hb, hafter⟩ := hcomplete.addresses _ hp
    exact (h.element hst hplace hb).mp hafter

theorem Relocatable.complete (hrelocatable : Relocatable st) : RelocationComplete st := by
  constructor
  · intro r hr
    obtain ⟨hdef, a, ha, hjump⟩ := hst.compiled r hr
    obtain ⟨w, hb⟩ := hjump.boundary hst.whole
    have haddr : st.addressOf r = a := by
      rw [Emitter.addressOf, ha]
      rfl
    rw [haddr]
    refine ⟨w, hb, ?_⟩
    rw [h.routine hst hdef ha hb]
    split
    · rfl
    · rename_i hrel
      have hstays := (hrelocatable.routines r hr).resolve_left hrel
      rw [haddr] at hstays
      rw [hstays.unique hb rfl]
  · rintro ⟨place, a⟩ hp
    obtain ⟨hjump, hplace⟩ := hst.addresses _ hp
    obtain ⟨w, hb⟩ := hjump.boundary hst.whole
    refine ⟨w, hb, ?_⟩
    cases place with
    | operand offset => exact h.operand hst hplace hb
    | immediate offset =>
      obtain ⟨w₂, hb₂, himm⟩ := h.immediate hst hplace.1 hplace.2
      have hstays := hrelocatable.immediates offset a hp
      have haw : a = w := hstays.unique hb rfl
      refine ⟨w₂, hb₂, ?_⟩
      rw [himm, haw]
    | constant i => exact (h.constant hst hplace hb).mpr (hrelocatable.constants i a hp)
    | element i j => exact (h.element hst hplace hb).mpr (hrelocatable.elements i j a hp)

end

/-- Every code address a compile stores is the new offset of its instruction exactly when nothing
is shortened, or the addresses that no bucket of the global table, no thread entry and no note
leads to stay in place. -/
theorem relocationComplete_iff {procedures : Procedures} {parts : List Emission} {st : Emitter}
    (hstart : Uncompiled procedures) (hrun : compileProgram procedures parts = some st) :
    RelocationComplete st ↔ ¬ Shortens st.chunk ∨ Relocatable st := by
  have hst := compileProgram_emitted hstart hrun
  rcases Emitter.optimize_cases hst with ⟨hshort, hsame⟩ | ⟨hshort, starts, rw, h⟩
  · exact ⟨fun _ => .inl hshort, fun _ => relocationComplete_of_not_shortens hst hshort hsame⟩
  · constructor
    · exact fun hcomplete => .inr (hcomplete.relocatable hst h)
    · rintro (hnot | hrelocatable)
      · exact absurd hshort hnot
      · exact hrelocatable.complete hst h

/-! ### a spawned routine behind a shortened one -/

def spawnProcedures : Procedures where
  heap := heapOf [{ noSymbol with name := "show" }, { noSymbol with name := "worker" }]
  table := .node 0 .nil (.node 1 .nil .nil)

/-- the first routine calls `byte(200)`; the address of the second is 18, and is pushed as an
immediate -/
def spawnParts : List Emission :=
  [.unitStart,
    .routine 0 8 true,
    .pushLiteral (.scalar .int32 200),
    .literal (.str .string (some "byte")),
    .instruction [OpCode.callBuiltin.byte, 0, 1, 1],
    .instruction [OpCode.pop.byte],
    .instruction [OpCode.returnOp.byte],
    .routine 1 1 true,
    .instruction [OpCode.returnOp.byte],
    .spawnAddress 1]

theorem spawnProcedures_uncompiled : Uncompiled spawnProcedures where
  noCode
    | 0 => ⟨rfl, Int.le_refl 0⟩
    | 1 => ⟨rfl, Int.le_refl 0⟩
    | _ + 2 => ⟨rfl, Int.le_refl 0⟩
  nodup := by decide

theorem run_fact {α : Type} {procedures : Procedures} {parts : List Emission} {f : Emitter → α}
    {c : α} (hrun : compileProgram procedures parts = some st)
    (h : (compileProgram procedures parts).map f = some c) : f st = c := by
  rw [hrun] at h
  exact some.inj h

theorem spawnParts_run : ∃ st, compileProgram spawnProcedures spawnParts = some st ∧
    Shortens st.chunk ∧ (AddressPlace.immediate 19, 18) ∈ st.addresses ∧
      ¬ Stays st.chunk 18 := by
  have hsome : (compileProgram spawnProcedures spawnParts).isSome = true := by decide +kernel
  obtain ⟨st, hrun⟩ := isSome_iff_exists.mp hsome
  have hcount : st.chunk.count = 22 := run_fact hrun (f := fun st => st.chunk.count)
    (by decide +kernel)
  have hfirst : (pieceAt st.chunk 0).length = 5 ∧ (pieceAt st.chunk 0).out.length = 5 :=
    Prod.mk.inj (run_fact hrun
      (f := fun st => ((pieceAt st.chunk 0).length, (pieceAt st.chunk 0).out.length))
      (by decide +kernel))
  have hfused : (pieceAt st.chunk 5).fused = true :=
    run_fact hrun (f := fun st => (pieceAt st.chunk 5).fused) (by decide +kernel)
  have hplace : st.addresses = [(.immediate 19, 18), (.constant 2, 18)] :=
    run_fact hrun (f := Emitter.addresses) (by decide +kernel)
  have hboundary : Boundary st.chunk 5 5 := by
    have hnext := Boundary.start.next (show 0 < st.chunk.count by omega)
    rwa [hfirst.1, hfirst.2] at hnext
  refine ⟨st, hrun, ⟨5, 5, hboundary, by omega, hfused⟩, ?_, fun hstays => ?_⟩
  · rw [hplace]
    exact mem_cons_self
  · have hst := compileProgram_emitted spawnProcedures_uncompiled hrun
    have hplain := ((stays_iff hst.whole.layout).mp hstays).2 5 5 hboundary (by omega)
    rw [hfused] at hplain
    cases hplain

theorem relocationComplete_iff_spawn : ∃ st, compileProgram spawnProcedures spawnParts = some st ∧
    (RelocationComplete st ↔ ¬ Shortens st.chunk ∨ Relocatable st) :=
  spawnParts_run.imp fun _ h => ⟨h.1, relocationComplete_iff spawnProcedures_uncompiled h.1⟩

/-- an address pushed as an immediate stays what it was -/
theorem spawn_address_stale : ¬ ∀ procedures parts st, Uncompiled procedures →
    compileProgram procedures parts = some st → RelocationComplete st := by
  intro hall
  obtain ⟨st, hrun, hshort, hplace, hmoved⟩ := spawnParts_run
  have hcomplete := hall _ _ st spawnProcedures_uncompiled hrun
  have hst := compileProgram_emitted spawnProcedures_uncompiled hrun
  rcases Emitter.optimize_cases hst with ⟨hnot, -⟩ | ⟨-, starts, rw, h⟩
  · exact hnot hshort
  · exact hmoved ((hcomplete.relocatable hst h).immediates _ _ hplace)

/-! ## the other constants -/

def LiteralsKept (st : Emitter) : Prop :=
  ∀ i ∈ st.literals, st.optimize.chunk.constants[i]? = st.chunk.constants[i]?

def Emitter.NoteHarmless (st : Emitter) (e : AddressConstantEntry) : Prop :=
  match entryRoutine st.procedures e with
  | some r =>
    if st.Relocates r then ∃ w : Nat, e.originalAddress = w ∧ Boundary st.chunk (st.addressOf r) w
    else e.originalAddress = st.addressOf r
  | none => ∃ a : Nat, e.originalAddress = a ∧ Stays st.chunk a

theorem setIntBits_intConstant {n : Nat} (h : n < 2 ^ 31) (v : Int) :
    (intConstant v).setInt n = intConstant v ↔ v = n := by
  have hbits : ∀ t : IntType, t = .int32 ∨ t = .int64 → setIntBits t n = n := by
    rintro t (rfl | rfl) <;> rw [setIntBits] <;> omega
  unfold intConstant
  split
  · rw [Value.setInt, hbits .int32 (.inl rfl)]
    exact ⟨fun heq => by injection heq with _ heq; exact heq.symm, fun heq => by rw [heq]⟩
  · rw [Value.setInt, hbits .int64 (.inr rfl)]
    exact ⟨fun heq => by injection heq with _ heq; exact heq.symm, fun heq => by rw [heq]⟩

section
variable {st : Emitter} {starts : List Nat} {rw : Rewrite} {result : PeepholeResult}
  (hst : Emitted st) (h : Optimized st starts rw result)
include hst h

theorem Optimized.harmless {e : AddressConstantEntry} (he : e ∈ st.entries) :
    ∃ n : Nat, n < 2 ^ 31 ∧
      entryAddress st.chunk.count rw.offsetMap result.procedures e = n ∧
      (e.originalAddress = n ↔ st.NoteHarmless e) := by
  have hlayout := hst.whole.layout
  have hsize := hst.size
  unfold Emitter.NoteHarmless
  cases hr : entryRoutine st.procedures e with
  | none =>
    rcases (hst.entries e he).original with hneg | ⟨a, ha, hjump⟩
    · refine ⟨0, by omega, ?_, fun hzero => ⟨0, hzero, .start⟩, fun ⟨a, ha, _⟩ => ?_⟩
      · rw [h.entry_plain hr, mappedAddress_nonpos h.rewritten hlayout hneg]
      · show e.originalAddress = 0
        omega
    · obtain ⟨w, hb⟩ := hjump.boundary hst.whole
      have hle := hb.le hlayout
      refine ⟨w, by omega, ?_, fun hw => ⟨a, ha, ?_⟩, fun ⟨b, hb', hstays⟩ => ?_⟩
      · rw [h.entry_plain hr, ha, mappedAddress_boundary h.rewritten hlayout hb]
      · have haw : a = w := by omega
        rwa [← haw] at hb
      · have hab : b = a := by omega
        rw [hab] at hstays
        rw [ha, hstays.unique hb rfl]
  | some r =>
    obtain ⟨w, hb, -, haddr⟩ := h.entry_routine hst hr
    have hle := hb.le hlayout
    refine ⟨_, ?_, haddr, ?_⟩
    · split <;> omega
    · dsimp only
      split
      · rename_i hrel
        constructor
        · exact fun hw => ⟨w, hw, hb⟩
        · rintro ⟨w', hw', hb'⟩
          rw [hw', hb'.unique hb rfl]
      · exact Iff.rfl

theorem Optimized.literal {i : Nat} (hi : i ∈ st.literals) :
    result.chunk.constants[i]? = st.chunk.constants[i]? ↔
      ∀ e, lastEntry st.entries i none = some e → st.NoteHarmless e := by
  have hother : ∀ e ∈ st.entries, e.constantIndex = i → e.elementIndex = none := by
    intro e he hidx
    cases hj : e.elementIndex with
    | none => rfl
    | some j =>
      obtain ⟨-, -, hlit, -⟩ := (hst.entries e he).element j hj
      rw [hidx] at hlit
      exact absurd hi hlit
  rw [h.constants]
  by_cases hnote : ∃ e ∈ st.entries, e.constantIndex = i
  · obtain ⟨e₀, he₀, hidx₀⟩ := hnote
    have hpooled := (hst.entries e₀ he₀).pooled (hother e₀ he₀ hidx₀)
    rw [hidx₀] at hpooled
    obtain ⟨t, ht⟩ : ∃ t, intConstant e₀.originalAddress = .scalar t e₀.originalAddress := by
      unfold intConstant
      split <;> exact ⟨_, rfl⟩
    have hvalue := relocateConstants_scalar st.chunk.count rw.offsetMap result.procedures
      st.entries (hpooled.trans (congrArg some ht))
    rw [hvalue, hpooled]
    cases he : lastEntry st.entries i none with
    | none => exact ⟨nofun, fun _ => by rw [ht]⟩
    | some e =>
      obtain ⟨hmem, hidx, hnone⟩ := lastEntry_mem he
      have hpooled' := (hst.entries e hmem).pooled hnone
      rw [hidx, hpooled] at hpooled'
      obtain ⟨n, hn, haddr, hiff⟩ := h.harmless hst hmem
      have horiginal : intConstant e₀.originalAddress = intConstant e.originalAddress :=
        some.inj hpooled'
      have hset : Value.scalar t (setIntBits t n) = (intConstant e.originalAddress).setInt n := by
        rw [← horiginal, ht]
        rfl
      dsimp only
      rw [haddr, hset, horiginal, some_inj, setIntBits_intConstant hn, hiff]
      exact ⟨fun hok e' he' => by cases he'; exact hok, fun hall => hall e rfl⟩
  · have hnone : lastEntry st.entries i none = none := by
      rw [eq_none_iff_forall_not_mem]
      intro e he
      obtain ⟨hmem, hidx, -⟩ := lastEntry_mem he
      exact hnote ⟨e, hmem, hidx⟩
    rw [hnone]
    refine ⟨fun _ => nofun, fun _ => ?_⟩
    exact relocateConstants_of_noNote _ _ _ fun e he hidx => hnote ⟨e, he, hidx⟩

end

/-- Every constant the program uses for its value keeps it exactly when nothing is shortened, or
every such constant that is noted as a code address too keeps its place. -/
theorem literalsKept_iff {procedures : Procedures} {parts : List Emission} {st : Emitter}
    (hstart : Uncompiled procedures) (hrun : compileProgram procedures parts = some st) :
    LiteralsKept st ↔ ¬ Shortens st.chunk ∨
      ∀ i ∈ st.literals, ∀ e, lastEntry st.entries i none = some e → st.NoteHarmless e := by
  have hst := compileProgram_emitted hstart hrun
  rcases Emitter.optimize_cases hst with ⟨hshort, hsame⟩ | ⟨hshort, starts, rw, h⟩
  · refine ⟨fun _ => .inl hshort, fun _ i _ => ?_⟩
    rw [hsame]
  · constructor
    · exact fun hkept => .inr fun i hi => (h.literal hst hi).mp (hkept i hi)
    · rintro (hnot | hharmless)
      · exact absurd hshort hnot
      · exact fun i hi => (h.literal hst hi).mpr (hharmless i hi)

/-! ### an array bound that equals an address -/

/-- `var a: array[0..30] of integer`, and the routines of `spawnParts` behind it; the address of
the second routine is 30 too, and is taken -/
def boundParts : List Emission :=
  [.unitStart,
    .literal (.str .string (some "a")),
    .literal (.scalar .int32 0),
    .literal (.scalar .int32 30),
    .literal (.str .string (some "integer")),
    .instruction [OpCode.defineGlobalSlot.byte, 0, 0, 11, 1, 0, 1, 0, 2, 2, 0, 3],
    .routine 0 8 true,
    .pushLiteral (.scalar .int32 200),
    .literal (.str .string (some "byte")),
    .instruction [OpCode.callBuiltin.byte, 0, 5, 1],
    .instruction [OpCode.pop.byte],
    .instruction [OpCode.returnOp.byte],
    .routine 1 1 true,
    .instruction [OpCode.returnOp.byte],
    .referenceLiteral 1]

theorem boundParts_run : ∃ st, compileProgram spawnProcedures boundParts = some st ∧
    2 ∈ st.literals ∧ readConstantInt st.chunk 2 = some 30 ∧
      readConstantInt st.optimize.chunk 2 = some 26 := by
  have hsome : (compileProgram spawnProcedures boundParts).isSome = true := by decide +kernel
  obtain ⟨st, hrun⟩ := isSome_iff_exists.mp hsome
  have hliterals : st.literals = [5, 4, 3, 2, 1, 0] :=
    run_fact hrun (f := Emitter.literals) (by decide +kernel)
  refine ⟨st, hrun, ?_, run_fact hrun (f := fun st => readConstantInt st.chunk 2)
    (by decide +kernel), run_fact hrun (f := fun st => readConstantInt st.optimize.chunk 2)
    (by decide +kernel)⟩
  rw [hliterals]
  decide

theorem literalsKept_iff_bound : ∃ st, compileProgram spawnProcedures boundParts = some st ∧
    (LiteralsKept st ↔ ¬ Shortens st.chunk ∨
      ∀ i ∈ st.literals, ∀ e, lastEntry st.entries i none = some e → st.NoteHarmless e) :=
  boundParts_run.imp fun _ h => ⟨h.1, literalsKept_iff spawnProcedures_uncompiled h.1⟩

/-- the upper bound of the array becomes 26 with the address -/
theorem array_bound_changed : ¬ ∀ procedures parts st, Uncompiled procedures →
    compileProgram procedures parts = some st → LiteralsKept st := by
  intro hall
  obtain ⟨st, hrun, hmem, hbefore, hafter⟩ := boundParts_run
  have hkept := hall _ _ st spawnProcedures_uncompiled hrun 2 hmem
  rw [readConstantInt, hkept, ← readConstantInt, hbefore] at hafter
  cases hafter

end Pscal
