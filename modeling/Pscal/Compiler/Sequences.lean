import Pscal.Compiler.PeepholeMap

/-!
# Instructions and pieces

* `OpCode.inSequence`  the opcodes the sequences of the pass are made of;
* `boundary_of_opcode`  every other instruction is a piece of its own;
* `stays_iff`  an offset keeps its place exactly when nothing before it is shortened.
-/

namespace Pscal

def OpCode.inSequence : OpCode → Bool
  | .constant | .constant16 | .callBuiltin | .getLocal | .add | .subtract | .setLocal
  | .getLocalAddress | .swap | .setIndirect => true
  | _ => false

/-- the opcode at `pc` can stand in a sequence -/
def InSequence (chunk : BytecodeChunk) (pc : Nat) : Prop :=
  ∃ op, chunk.opcode? pc = some op ∧ op.inSequence = true

variable {chunk : BytecodeChunk} {j r : Nat}

theorem constantAt_inSequence {offset length index : Nat}
    (h : constantAt chunk offset = some (length, index)) : InSequence chunk offset := by
  obtain ⟨-, -, hop | hop⟩ := constantAt_cases h
  · exact ⟨_, hop.1, rfl⟩
  · exact ⟨_, hop.1, rfl⟩

section
variable {chunk : BytecodeChunk} {offset constantLength index store : Nat}
  {arithmetic replacement : OpCode} {delta : Int}
  (h : AdjustLocal chunk offset constantLength index store arithmetic replacement delta)
include h

theorem AdjustLocal.arithmetic_cases : arithmetic = .add ∧ (delta = 1 ∧ replacement = .incLocal ∨
      delta = -1 ∧ replacement = .decLocal) ∨
    arithmetic = .subtract ∧ (delta = 1 ∧ replacement = .decLocal ∨
      delta = -1 ∧ replacement = .incLocal) := by
  have hrepl := h.replaced
  unfold adjustment at hrepl
  split at hrepl
  · split at hrepl
    · rename_i hone
      cases hrepl
      exact .inl ⟨rfl, .inl ⟨hone, rfl⟩⟩
    · split at hrepl
      · rename_i hminus
        cases hrepl
        exact .inl ⟨rfl, .inr ⟨hminus, rfl⟩⟩
      · cases hrepl
  · split at hrepl
    · rename_i hone
      cases hrepl
      exact .inr ⟨rfl, .inl ⟨hone, rfl⟩⟩
    · split at hrepl
      · rename_i hminus
        cases hrepl
        exact .inr ⟨rfl, .inr ⟨hminus, rfl⟩⟩
      · cases hrepl
  · cases hrepl

theorem AdjustLocal.arithmetic_length :
    getInstructionLength chunk (offset + 2 + constantLength) = 1 := by
  have hin := (storeLengthAt_cases h.store).1
  have hlt : offset + 2 + constantLength < chunk.count := by omega
  rcases h.arithmetic_cases with ⟨rfl, -⟩ | ⟨rfl, -⟩
  · exact getInstructionLength_of_fixed hlt h.operation rfl
  · exact getInstructionLength_of_fixed hlt h.operation rfl

theorem AdjustLocal.inSequence {j : Nat} (hstart : InstrStart chunk offset)
    (hj : InstrStart chunk j) (hlo : offset ≤ j)
    (hhi : j < offset + (2 + constantLength + 1 + store)) : InSequence chunk j := by
  obtain ⟨hcin, hclen, -⟩ := constantAt_cases h.constant
  obtain ⟨hsin, -, hstore⟩ := storeLengthAt_cases h.store
  have hin := h.inside
  have hload : getInstructionLength chunk offset = 2 :=
    getInstructionLength_of_fixed (by omega) h.load rfl
  have harith := h.arithmetic_length
  have h₁ : InstrStart chunk (offset + 2) := hstart.step hload (by omega)
  have h₂ : InstrStart chunk (offset + 2 + constantLength) := h₁.step hclen (by omega)
  have h₃ : InstrStart chunk (offset + 2 + constantLength + 1) := h₂.step harith (by omega)
  by_cases hj₀ : j = offset
  · rw [hj₀]
    exact ⟨_, h.load, rfl⟩
  have hlo₁ := hstart.past hload hj hj₀ hlo
  by_cases hj₁ : j = offset + 2
  · rw [hj₁]
    exact constantAt_inSequence h.constant
  have hlo₂ := h₁.past hclen hj hj₁ hlo₁
  by_cases hj₂ : j = offset + 2 + constantLength
  · rw [hj₂]
    rcases h.arithmetic_cases with ⟨hop, -⟩ | ⟨hop, -⟩
    · exact ⟨_, h.operation, by rw [hop]; rfl⟩
    · exact ⟨_, h.operation, by rw [hop]; rfl⟩
  have hlo₃ := h₂.past harith hj hj₂ hlo₂
  rcases hstore with ⟨rfl, hset⟩ | ⟨rfl, haddr, hswap, hset⟩
  · by_cases hj₃ : j = offset + 2 + constantLength + 1
    · rw [hj₃]
      exact ⟨_, hset, rfl⟩
    · have hlen : getInstructionLength chunk (offset + 2 + constantLength + 1) = 2 :=
        getInstructionLength_of_fixed (by omega) hset rfl
      have := h₃.past hlen hj hj₃ hlo₃
      omega
  · have hlen : getInstructionLength chunk (offset + 2 + constantLength + 1) = 2 :=
      getInstructionLength_of_fixed (by omega) haddr rfl
    have h₄ := h₃.step hlen (by omega)
    have hlen₄ : getInstructionLength chunk (offset + 2 + constantLength + 1 + 2) = 1 :=
      getInstructionLength_of_fixed (by omega) hswap rfl
    have h₅ := h₄.step hlen₄ (by omega)
    by_cases hj₃ : j = offset + 2 + constantLength + 1
    · rw [hj₃]
      exact ⟨_, haddr, rfl⟩
    have hlo₄ := h₃.past hlen hj hj₃ hlo₃
    by_cases hj₄ : j = offset + 2 + constantLength + 1 + 2
    · rw [hj₄]
      exact ⟨_, hswap, rfl⟩
    have hlo₅ := h₄.past hlen₄ hj hj₄ hlo₄
    have hj₅ : j = offset + 2 + constantLength + 1 + 3 := by omega
    rw [hj₅]
    exact ⟨_, hset, rfl⟩

end

theorem ByteCall.inSequence {offset length index : Nat} (h : ByteCall chunk offset length index)
    (hstart : InstrStart chunk offset) (hj : InstrStart chunk j) (hlo : offset ≤ j)
    (hhi : j < offset + (length + 4)) : InSequence chunk j := by
  obtain ⟨-, hclen, -⟩ := constantAt_cases h.constant
  have hin := h.inside
  by_cases hj₀ : j = offset
  · rw [hj₀]
    exact constantAt_inSequence h.constant
  have hlo₁ := hstart.past hclen hj hj₀ hlo
  by_cases hj₁ : j = offset + length
  · rw [hj₁]
    exact ⟨_, h.call, rfl⟩
  have h₁ := hstart.step hclen (by omega)
  have hlen : getInstructionLength chunk (offset + length) = 4 :=
    getInstructionLength_of_fixed (by omega) h.call rfl
  have := h₁.past hlen hj hj₁ hlo₁
  omega

theorem fused_inSequence (hstart : InstrStart chunk r) (hfused : (pieceAt chunk r).fused = true)
    (hj : InstrStart chunk j) (hlo : r ≤ j) (hhi : j < r + (pieceAt chunk r).length) :
    InSequence chunk j := by
  rcases pieceAt_cases chunk r with
    ⟨length, index, hcall, he⟩ | ⟨clen, index, store, arith, repl, delta, hadj, he⟩ | he
  · rw [he] at hhi
    exact hcall.inSequence hstart hj hlo hhi
  · rw [he] at hhi
    exact hadj.inSequence hstart hj hlo hhi
  · rw [he] at hfused
    cases hfused

theorem instrStart_cases (hlayout : Layout chunk) (hj : InstrStart chunk j) :
    (∃ w, Boundary chunk j w) ∨
      ∃ r w, Boundary chunk r w ∧ (pieceAt chunk r).fused = true ∧ r < j ∧
        j < r + (pieceAt chunk r).length := by
  obtain ⟨r, w, hb, hr, hlt⟩ := boundary_covers hlayout j hj.lt
  by_cases he : j = r
  · rw [he]
    exact .inl ⟨w, hb⟩
  have hstart := hb.instrStart hlayout (Nat.lt_of_le_of_lt hr hj.lt)
  refine .inr ⟨r, w, hb, ?_, by omega, hlt⟩
  rcases pieceAt_cases chunk r with
    ⟨_, _, -, hpiece⟩ | ⟨_, _, _, _, _, _, -, hpiece⟩ | hpiece
  · rw [hpiece]
  · rw [hpiece]
  · rw [hpiece] at hlt
    have := hstart.past rfl hj he hr
    have hlt : j < r + getInstructionLength chunk r := hlt
    omega

theorem boundary_of_opcode (hlayout : Layout chunk) {op : OpCode} (hj : InstrStart chunk j)
    (hop : chunk.opcode? j = some op) (hseq : op.inSequence = false) :
    ∃ w, Boundary chunk j w ∧ (pieceAt chunk j).fused = false := by
  have hnot : ¬ InSequence chunk j := by
    rintro ⟨op', hop', hseq'⟩
    rw [hop] at hop'
    cases hop'
    rw [hseq] at hseq'
    cases hseq'
  rcases instrStart_cases hlayout hj with ⟨w, hb⟩ | ⟨r, w, hb, hfused, hlo, hhi⟩
  · refine ⟨w, hb, Bool.eq_false_iff.mpr fun hfused => hnot ?_⟩
    have hpos : 0 < (pieceAt chunk j).length := by
      have hw := wholePiece hlayout hj
      exact Nat.lt_of_lt_of_le hw.pos hw.le
    exact fused_inSequence hj hfused hj (Nat.le_refl _) (by omega)
  · have hstart := hb.instrStart hlayout (Nat.lt_trans hlo hj.lt)
    exact absurd (fused_inSequence hstart hfused hj (Nat.le_of_lt hlo) hhi) hnot

theorem pieceAt_plain (h : (pieceAt chunk r).fused = false) : pieceAt chunk r =
      { length := getInstructionLength chunk r
        out := codeBytes chunk r (getInstructionLength chunk r)
        image := id
        fused := false } := by
  rcases pieceAt_cases chunk r with ⟨_, _, -, he⟩ | ⟨_, _, _, _, _, _, -, he⟩ | he
  · rw [he] at h
    cases h
  · rw [he] at h
    cases h
  · exact he

/-! ## offsets that keep their place -/

def Shortens (chunk : BytecodeChunk) : Prop :=
  ∃ r w, Boundary chunk r w ∧ r < chunk.count ∧ (pieceAt chunk r).fused = true

/-- the new offset of `a` is `a` -/
def Stays (chunk : BytecodeChunk) (a : Nat) : Prop := Boundary chunk a a

theorem fused_shorter (h : (pieceAt chunk r).fused = true) :
    (pieceAt chunk r).out.length < (pieceAt chunk r).length := by
  rcases pieceAt_cases chunk r with
    ⟨length, index, hcall, he⟩ | ⟨clen, index, store, arith, repl, delta, hadj, he⟩ | he
  · rw [he]
    show (codeBytes chunk r length).length < length + 4
    rw [codeBytes_length (constantAt_cases hcall.constant).1]
    omega
  · rw [he]
    show 2 < 2 + clen + 1 + store
    omega
  · rw [he] at h
    cases h

theorem Rounds.shorter (hlayout : Layout chunk) {w r' w' : Nat} (h : Rounds chunk r w r' w')
    (hb : Boundary chunk r w) (hlt : w < r) : w' < r' := by
  induction h with
  | refl => exact hlt
  | step hr _ ih =>
    have hle := (wholePiece hlayout (hb.instrStart hlayout hr)).le
    exact ih (hb.next hr) (by omega)

section
variable {chunk : BytecodeChunk} (hlayout : Layout chunk) {r w r' w' : Nat}
  (h : Boundary chunk r w)
include hlayout h

theorem Boundary.strict (h' : Boundary chunk r' w') (hlt : r < r') : w < w' := by
  have hbefore := h.before h' hlt
  have hle := (h'.le hlayout).1
  have hpos := (wholePiece hlayout (h.instrStart hlayout (by omega))).pos
  omega

theorem Boundary.injective (h' : Boundary chunk r' w') (he : w = w') : r = r' := by
  rcases Nat.lt_trichotomy r r' with hlt | heq | hlt
  · have := h.strict hlayout h' hlt
    omega
  · exact heq
  · have := h'.strict hlayout h hlt
    omega

theorem Boundary.stays_iff :
    w = r ↔ ∀ p q, Boundary chunk p q → p < r → (pieceAt chunk p).fused = false := by
  constructor
  · rintro rfl p q hb hlt
    refine Bool.eq_false_iff.mpr fun hfused => ?_
    have hbefore := hb.before h hlt
    have hle := h.le hlayout
    have hnext := hb.next (by omega)
    have hshort := fused_shorter hfused
    have hq := (hb.le hlayout).2
    rcases hnext.rounds.linear h.rounds with hrest | hrest
    · exact Nat.lt_irrefl _ (hrest.shorter hlayout hnext (by omega))
    · have hle' := hrest.le
      have heq := hnext.unique h (by omega)
      omega
  · intro hplain
    induction h with
    | start => rfl
    | @next r w hb hr ih =>
      have hp := hplain r w hb (by
        have hpos := (wholePiece hlayout (hb.instrStart hlayout hr)).pos
        have hle := (wholePiece hlayout (hb.instrStart hlayout hr)).le
        omega)
      have heq : w = r := ih fun p q hpq hlt => hplain p q hpq (by omega)
      have hin := hlayout r (hb.instrStart hlayout hr)
      rw [pieceAt_plain hp, heq]
      show r + (codeBytes chunk r _).length = _
      rw [codeBytes_length hin]

end

theorem stays_iff (hlayout : Layout chunk) {a : Nat} : Stays chunk a ↔ (∃ w, Boundary chunk a w) ∧
      ∀ p q, Boundary chunk p q → p < a → (pieceAt chunk p).fused = false := by
  constructor
  · intro h
    exact ⟨⟨a, h⟩, (Boundary.stays_iff hlayout h).mp rfl⟩
  · rintro ⟨⟨w, h⟩, hplain⟩
    have heq := (h.stays_iff hlayout).mpr hplain
    rwa [heq] at h

end Pscal
