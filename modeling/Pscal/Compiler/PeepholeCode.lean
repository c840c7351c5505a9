import Pscal.Compiler.PeepholeMap
import Pscal.Lib.Patch

/-!
# The code after the pass

Jumps and thread entries are patched over the copied bytes.

* `operandAt`  the operand the pass puts into the piece at a boundary;
* `FinalCode`  every byte of the code after the pass, by boundary;
* `finalCode_spec`  `patchJumps` and `patchAbsolutes` produce it.
-/

namespace Pscal

open BytecodeChunk List Option

/-! ## 32-bit operands -/

theorem toNat_ofNat_mod (n : Int) : (UInt8.ofNat (n % 256).toNat).toNat = (n % 256).toNat := by
  rw [UInt8.toNat_ofNat']
  omega

variable {chunk : BytecodeChunk} {r w : Nat}

theorem i32_of_int32Bytes {pos : Nat} {v : Int}
    (h : ∀ i, i < 4 → chunk.code[pos + i]? = (int32Bytes v)[i]?) (hlo : -2 ^ 31 ≤ v)
    (hhi : v < 2 ^ 31) : chunk.i32 pos = v := by
  have hbyte : ∀ i, i < 4 → chunk.u8 (pos + i) = ((int32Bytes v).getD i 0).toNat := by
    intro i hi
    rw [BytecodeChunk.u8, BytecodeChunk.byte, getD_eq_getElem?_getD, h i hi,
      ← getD_eq_getElem?_getD]
  have h0 : chunk.u8 pos = (v / 2 ^ 24 % 256).toNat :=
    (hbyte 0 (by decide)).trans (toNat_ofNat_mod _)
  have h1 : chunk.u8 (pos + 1) = (v / 2 ^ 16 % 256).toNat :=
    (hbyte 1 (by decide)).trans (toNat_ofNat_mod _)
  have h2 : chunk.u8 (pos + 2) = (v / 2 ^ 8 % 256).toNat :=
    (hbyte 2 (by decide)).trans (toNat_ofNat_mod _)
  have h3 : chunk.u8 (pos + 2 + 1) = (v % 256).toNat :=
    (hbyte 3 (by decide)).trans (toNat_ofNat_mod _)
  rw [BytecodeChunk.i32, BytecodeChunk.u32, BytecodeChunk.u16, BytecodeChunk.u16, h0, h1, h2, h3,
    BytecodeChunk.toInt32]
  split <;> omega

/-! ## the patches -/

section
variable (chunk : BytecodeChunk) (starts : List Nat) (offsetMap : Nat → Option Nat)

/-- the operand the pass puts into the piece copied from `r` to `w` -/
def operandAt (r w : Nat) : Option Int :=
  if r + 4 < chunk.count then
    match chunk.opcode? r with
    | some .jump | some .jumpIfFalse =>
      (jumpTarget chunk.count starts offsetMap (r + 5 + chunk.i32 (r + 1))).map fun target =>
        (target : Int) - (w + 5)
    | some .threadCreate => some (mappedAddress chunk.count offsetMap (chunk.i32 (r + 1)))
    | _ => none
  else none

def jumpPatches (fixes : List JumpFixup) : List (Nat × List UInt8) :=
  fixes.filterMap fun fix =>
    (jumpTarget chunk.count starts offsetMap fix.originalTarget).map fun target =>
      (fix.newOffset + 1, int32Bytes ((target : Int) - (fix.newOffset + 5)))

def absolutePatches (fixes : List AbsoluteFixup) : List (Nat × List UInt8) :=
  fixes.map fun fix =>
    (fix.operandOffset, int32Bytes (mappedAddress chunk.count offsetMap fix.originalAddress))

theorem patchJumps_code (fixes : List JumpFixup) (code : List UInt8) :
    (patchJumps chunk.count starts offsetMap fixes code).1 =
      Patch.writeAll code (jumpPatches chunk starts offsetMap fixes) := by
  induction fixes generalizing code with
  | nil => rfl
  | cons fix fixes ih =>
    rw [patchJumps]
    cases ht : jumpTarget chunk.count starts offsetMap fix.originalTarget with
    | some target =>
      rw [jumpPatches, filterMap_cons_some (by rw [ht]; rfl)]
      exact ih _
    | none =>
      rw [jumpPatches, filterMap_cons_none (by rw [ht]; rfl)]
      exact ih _

theorem patchAbsolutes_code (fixes : List AbsoluteFixup) (code : List UInt8) :
    patchAbsolutes chunk.count offsetMap fixes code =
      Patch.writeAll code (absolutePatches chunk offsetMap fixes) := by
  rw [patchAbsolutes, Patch.writeAll, absolutePatches, foldl_map]
  rfl

def finalCode (rw : Rewrite) : List UInt8 :=
  patchAbsolutes chunk.count rw.offsetMap rw.absoluteFixes
    (patchJumps chunk.count starts rw.offsetMap rw.jumpFixes rw.code).1

end

theorem mem_jumpFixupAt {fix : JumpFixup} : fix ∈ jumpFixupAt chunk r w ↔
      ((chunk.opcode? r = some .jump ∨ chunk.opcode? r = some .jumpIfFalse) ∧
        r + 4 < chunk.count) ∧ fix = ⟨r + 5 + chunk.i32 (r + 1), w⟩ := by
  unfold jumpFixupAt
  split
  · rename_i h
    simp [h]
  · rename_i h
    simp [h]

theorem mem_absoluteFixupAt {fix : AbsoluteFixup} : fix ∈ absoluteFixupAt chunk r w ↔
      (chunk.opcode? r = some .threadCreate ∧ r + 4 < chunk.count) ∧
        fix = ⟨w + 1, chunk.i32 (r + 1)⟩ := by
  unfold absoluteFixupAt
  split
  · rename_i h
    simp [h]
  · rename_i h
    simp [h]

theorem mem_patches {rw : Rewrite} (h : Rewritten chunk rw) (starts : List Nat)
    (p : Nat × List UInt8) : p ∈ jumpPatches chunk starts rw.offsetMap rw.jumpFixes ++
        absolutePatches chunk rw.offsetMap rw.absoluteFixes ↔
      ∃ r w v, Boundary chunk r w ∧ r < chunk.count ∧ (pieceAt chunk r).fused = false ∧
        operandAt chunk starts rw.offsetMap r w = some v ∧ p = (w + 1, int32Bytes v) := by
  rw [mem_append, jumpPatches, absolutePatches, mem_filterMap, List.mem_map]
  constructor
  · rintro (⟨fix, hfix, hp⟩ | ⟨fix, hfix, hp⟩)
    · obtain ⟨r, w, hb, hr, hplain, hmem⟩ := (h.jumpFixes fix).mp hfix
      obtain ⟨⟨hop, hin⟩, rfl⟩ := mem_jumpFixupAt.mp hmem
      obtain ⟨target, htarget, rfl⟩ := map_eq_some_iff.mp hp
      refine ⟨r, w, (target : Int) - (w + 5), hb, hr, hplain, ?_, rfl⟩
      rw [operandAt, if_pos hin]
      rcases hop with hop | hop <;> rw [hop] <;> exact congrArg (Option.map _) htarget
    · obtain ⟨r, w, hb, hr, hplain, hmem⟩ := (h.absoluteFixes fix).mp hfix
      obtain ⟨⟨hop, hin⟩, rfl⟩ := mem_absoluteFixupAt.mp hmem
      refine ⟨r, w, _, hb, hr, hplain, ?_, hp.symm⟩
      rw [operandAt, if_pos hin, hop]
  · rintro ⟨r, w, v, hb, hr, hplain, hv, rfl⟩
    rw [operandAt] at hv
    split at hv
    · rename_i hin
      have hjump : ∀ hop : chunk.opcode? r = some .jump ∨ chunk.opcode? r = some .jumpIfFalse,
          ⟨r + 5 + chunk.i32 (r + 1), w⟩ ∈ rw.jumpFixes :=
        fun hop => (h.jumpFixes _).mpr ⟨r, w, hb, hr, hplain, mem_jumpFixupAt.mpr ⟨⟨hop, hin⟩, rfl⟩⟩
      split at hv
      · rename_i hop
        obtain ⟨target, htarget, rfl⟩ := map_eq_some_iff.mp hv
        exact .inl ⟨_, hjump (.inl hop), by rw [htarget]; rfl⟩
      · rename_i hop
        obtain ⟨target, htarget, rfl⟩ := map_eq_some_iff.mp hv
        exact .inl ⟨_, hjump (.inr hop), by rw [htarget]; rfl⟩
      · rename_i hop
        cases hv
        exact .inr ⟨_, (h.absoluteFixes _).mpr
          ⟨r, w, hb, hr, hplain, mem_absoluteFixupAt.mpr ⟨⟨hop, hin⟩, rfl⟩⟩, rfl⟩
      · cases hv
    · cases hv

/-! ## the code after the pass -/

theorem operandAt_length {starts : List Nat} {offsetMap : Nat → Option Nat} {v : Int}
    (hv : operandAt chunk starts offsetMap r w = some v) (hplain : (pieceAt chunk r).fused = false)
    (hlayout : Layout chunk) (hstart : InstrStart chunk r) : (pieceAt chunk r).out.length = 5 := by
  have hlen : getInstructionLength chunk r = 1 + 4 := by
    rw [operandAt] at hv
    split at hv
    · have hlt := hstart.lt
      split at hv
      · rename_i hop
        exact getInstructionLength_of_fixed hlt hop rfl
      · rename_i hop
        exact getInstructionLength_of_fixed hlt hop rfl
      · rename_i hop
        exact getInstructionLength_of_fixed hlt hop rfl
      · cases hv
    · cases hv
  have hin := hlayout r hstart
  rcases pieceAt_cases chunk r with ⟨_, _, -, he⟩ | ⟨_, _, _, _, _, _, -, he⟩ | he
  · rw [he] at hplain
    cases hplain
  · rw [he] at hplain
    cases hplain
  · rw [he]
    show (codeBytes chunk r _).length = 5
    rw [codeBytes_length hin, hlen]

structure FinalCode (chunk : BytecodeChunk) (starts : List Nat) (rw : Rewrite)
    (code : List UInt8) : Prop where
  length : code.length = rw.code.length
  copied : ∀ r w, Boundary chunk r w → r < chunk.count → ∀ i, i < (pieceAt chunk r).out.length →
    (pieceAt chunk r).fused = true ∨ operandAt chunk starts rw.offsetMap r w = none ∨ i = 0 →
    code[w + i]? = (pieceAt chunk r).out[i]?
  operand : ∀ r w v, Boundary chunk r w → r < chunk.count → (pieceAt chunk r).fused = false →
    operandAt chunk starts rw.offsetMap r w = some v → ∀ i, i < 4 →
    code[w + 1 + i]? = (int32Bytes v)[i]?

theorem finalCode_spec (hlayout : Layout chunk) (starts : List Nat) {rw : Rewrite}
    (h : Rewritten chunk rw) : FinalCode chunk starts rw (finalCode chunk starts rw) := by
  have hcode : finalCode chunk starts rw = Patch.writeAll rw.code
      (jumpPatches chunk starts rw.offsetMap rw.jumpFixes ++
        absolutePatches chunk rw.offsetMap rw.absoluteFixes) := by
    rw [finalCode, patchAbsolutes_code, patchJumps_code, ← Patch.writeAll_append]
  have hpiece : ∀ r w v, Boundary chunk r w → r < chunk.count →
      (pieceAt chunk r).fused = false → operandAt chunk starts rw.offsetMap r w = some v →
      (pieceAt chunk r).out.length = 5 := fun r w v hb hr hplain hv =>
    operandAt_length hv hplain hlayout (hb.instrStart hlayout hr)
  have hinside : ∀ p ∈ jumpPatches chunk starts rw.offsetMap rw.jumpFixes ++
      absolutePatches chunk rw.offsetMap rw.absoluteFixes, Patch.Inside p rw.code.length := by
    intro p hp
    obtain ⟨r, w, v, hb, hr, hplain, hv, rfl⟩ := (mem_patches h starts p).mp hp
    have hlen := hpiece r w v hb hr hplain hv
    have hafter := hb.before h.finish hr
    show w + 1 + 4 ≤ _
    omega
  refine ⟨?_, fun r w hb hr i hi hkept => ?_, fun r w v hb hr hplain hv i hi => ?_⟩
  · rw [hcode, Patch.length_writeAll _ hinside]
  · rw [hcode, Patch.getElem?_writeAll_of_outside _ hinside]
    · exact h.code r w hb hr i hi
    · intro p hp
      obtain ⟨r', w', v', hb', hr', hplain', hv', rfl⟩ := (mem_patches h starts p).mp hp
      have hlen' := hpiece r' w' v' hb' hr' hplain' hv'
      show w + i < w' + 1 ∨ w' + 1 + 4 ≤ w + i
      rcases Nat.lt_trichotomy r r' with hlt | rfl | hlt
      · have hbefore := hb.before hb' hlt
        omega
      · cases hb.unique hb' rfl
        rcases hkept with hfused | hnone | rfl
        · rw [hplain'] at hfused
          cases hfused
        · rw [hnone] at hv'
          cases hv'
        · omega
      · have hbefore := hb'.before hb hlt
        omega
  · have hmem := (mem_patches h starts (w + 1, int32Bytes v)).mpr ⟨r, w, v, hb, hr, hplain, hv, rfl⟩
    rw [hcode]
    refine Patch.getElem?_writeAll_of_mem _ hinside hmem ?_ hi
    intro q hq
    obtain ⟨r', w', v', hb', hr', hplain', hv', rfl⟩ := (mem_patches h starts q).mp hq
    have hlen := hpiece r w v hb hr hplain hv
    have hlen' := hpiece r' w' v' hb' hr' hplain' hv'
    rcases Nat.lt_trichotomy r r' with hlt | rfl | hlt
    · have hbefore := hb.before hb' hlt
      refine .inr (.inl ?_)
      show w + 1 + 4 ≤ w' + 1
      omega
    · cases hb.unique hb' rfl
      rw [hv] at hv'
      cases hv'
      exact .inl rfl
    · have hbefore := hb'.before hb hlt
      refine .inr (.inr ?_)
      show w' + 1 + 4 ≤ w + 1
      omega

end Pscal
