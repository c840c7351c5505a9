import Pscal.Bytecode.Stream
import Pscal.Compiler.Peephole

/-!
# Where the bytes of a chunk go

* `Boundary chunk r w`  the copy loop comes to old offset `r` with new offset `w`;
* `wholePiece`  a round reads whole instructions;
* `boundary_covers`  every byte of the code is read by a round;
* `rewriteCode_spec`  what the loop has produced at its end.
-/

namespace Pscal

open BytecodeChunk List Function

/-! ## the layout of the old code -/

def Layout (chunk : BytecodeChunk) : Prop :=
  ∀ pc, InstrStart chunk pc → pc + getInstructionLength chunk pc ≤ chunk.count

section
variable {chunk : BytecodeChunk} {starts : List Nat}
  (h : instructionStarts chunk chunk.count 0 = some starts)
include h

end

variable {chunk : BytecodeChunk} {length offset r w : Nat}

theorem instructionStarts_of_layout (h : Layout chunk) (room offset : Nat)
    (hoffset : offset < chunk.count → InstrStart chunk offset) :
    ∃ starts, instructionStarts chunk room offset = some starts := by
  induction room generalizing offset with
  | zero => exact ⟨[], rfl⟩
  | succ room ih =>
    rw [instructionStarts]
    by_cases hlt : offset < chunk.count
    · have hstart := hoffset hlt
      have hin : ¬ chunk.count < offset + getInstructionLength chunk offset :=
        Nat.not_lt.mpr (h offset hstart)
      obtain ⟨rest, hrest⟩ := ih (offset + getInstructionLength chunk offset)
        fun hn => .next hstart hn
      rw [if_pos hlt, if_neg hin, hrest]
      exact ⟨_, rfl⟩
    · rw [if_neg hlt]
      exact ⟨[], rfl⟩

/-! ## pieces -/

theorem constantAt_cases {index : Nat} (h : constantAt chunk offset = some (length, index)) :
    offset + length ≤ chunk.count ∧ getInstructionLength chunk offset = length ∧
      (chunk.opcode? offset = some .constant ∧ length = 2 ∧ index = chunk.u8 (offset + 1) ∨
        chunk.opcode? offset = some .constant16 ∧ length = 3 ∧ index = chunk.u16 (offset + 1)) := by
  unfold constantAt at h
  split at h
  · rename_i hop
    split at h
    · rename_i hlt
      cases h
      have hlen : getInstructionLength chunk offset = 1 + 1 :=
        getInstructionLength_of_fixed (by omega) hop rfl
      exact ⟨by omega, hlen, .inl ⟨hop, rfl, rfl⟩⟩
    · cases h
  · rename_i hop
    split at h
    · rename_i hlt
      cases h
      have hlen : getInstructionLength chunk offset = 1 + 2 :=
        getInstructionLength_of_fixed (by omega) hop rfl
      exact ⟨by omega, hlen, .inr ⟨hop, rfl, rfl⟩⟩
    · cases h
  · cases h

/-- a constant and a call of `byte` -/
structure ByteCall (chunk : BytecodeChunk) (offset length index : Nat) : Prop where
  constant : constantAt chunk offset = some (length, index)
  inside : offset + length + 4 ≤ chunk.count
  call : chunk.opcode? (offset + length) = some .callBuiltin
  arguments : chunk.u8 (offset + length + 3) = 1
  name : isByteName chunk (chunk.u16 (offset + length + 1)) = true
  value : isByteConstant chunk index = true

theorem byteCallAt_cases (h : byteCallAt chunk offset = some length) :
    ∃ index, ByteCall chunk offset length index := by
  unfold byteCallAt at h
  split at h
  · cases h
  · rename_i constantLength index hconst
    dsimp only at h
    split at h
    · rename_i hall
      cases h
      obtain ⟨hin, hcall, hargs, hname, hvalue⟩ := hall
      exact ⟨index, hconst, by omega, hcall, hargs, hname, hvalue⟩
    · cases h

theorem storeLengthAt_cases {slot : UInt8} (h : storeLengthAt chunk offset slot = some length) :
    offset + length ≤ chunk.count ∧ chunk.byte (offset + 1) = slot ∧
      (length = 2 ∧ chunk.opcode? offset = some .setLocal ∨
        length = 4 ∧ chunk.opcode? offset = some .getLocalAddress ∧
          chunk.opcode? (offset + 2) = some .swap ∧
          chunk.opcode? (offset + 3) = some .setIndirect) := by
  unfold storeLengthAt at h
  split at h
  · rename_i hall
    cases h
    obtain ⟨hop, hin, hslot⟩ := hall
    exact ⟨by omega, hslot, .inl ⟨rfl, hop⟩⟩
  · split at h
    · rename_i hall
      cases h
      obtain ⟨hop, hin, hslot, hswap, hset⟩ := hall
      exact ⟨by omega, hslot, .inr ⟨rfl, hop, hswap, hset⟩⟩
    · cases h

structure AdjustLocal (chunk : BytecodeChunk) (offset constantLength index store : Nat)
    (arithmetic replacement : OpCode) (delta : Int) : Prop where
  load : chunk.opcode? offset = some .getLocal
  inside : offset + 6 < chunk.count
  constant : constantAt chunk (offset + 2) = some (constantLength, index)
  value : readConstantInt chunk index = some delta
  operation : chunk.opcode? (offset + 2 + constantLength) = some arithmetic
  replaced : adjustment arithmetic delta = some replacement
  store : storeLengthAt chunk (offset + 2 + constantLength + 1) (chunk.byte (offset + 1)) =
    some store

theorem adjustLocalAt_cases {replacement : OpCode}
    (h : adjustLocalAt chunk offset = some (length, replacement)) :
    ∃ constantLength index store arithmetic delta,
      AdjustLocal chunk offset constantLength index store arithmetic replacement delta ∧
        length = 2 + constantLength + 1 + store := by
  unfold adjustLocalAt at h
  split at h
  · rename_i hload
    split at h
    · cases h
    · rename_i constantLength index hconst
      dsimp only at h
      split at h
      · split at h
        · rename_i op delta hop hdelta
          split at h
          · cases h
          · rename_i repl hrepl
            split at h
            · obtain ⟨store, hstore, heq⟩ := Option.map_eq_some_iff.mp h
              cases heq
              exact ⟨constantLength, index, store, op, delta,
                ⟨hload.1, hload.2, hconst, hdelta, hop, hrepl, hstore⟩, rfl⟩
            · cases h
        · cases h
      · cases h
  · cases h

/-! ## boundaries -/

theorem pieceAt_cases (chunk : BytecodeChunk) (offset : Nat) :
    (∃ length index, ByteCall chunk offset length index ∧
      pieceAt chunk offset =
        { length := length + 4
          out := codeBytes chunk offset length
          image := fun i => if i < length then i else length - 1
          fused := true }) ∨
    (∃ constantLength index store arithmetic replacement delta,
      AdjustLocal chunk offset constantLength index store arithmetic replacement delta ∧
        pieceAt chunk offset =
          { length := 2 + constantLength + 1 + store
            out := [replacement.byte, chunk.byte (offset + 1)]
            image := fun _ => 0
            fused := true }) ∨
    pieceAt chunk offset =
      { length := getInstructionLength chunk offset
        out := codeBytes chunk offset (getInstructionLength chunk offset)
        image := id
        fused := false } := by
  unfold pieceAt
  cases hbyte : byteCallAt chunk offset with
  | some length =>
    obtain ⟨index, hcall⟩ := byteCallAt_cases hbyte
    exact .inl ⟨length, index, hcall, rfl⟩
  | none =>
    cases hadj : adjustLocalAt chunk offset with
    | some p =>
      obtain ⟨length, replacement⟩ := p
      obtain ⟨constantLength, index, store, arithmetic, delta, hwin, rfl⟩ :=
        adjustLocalAt_cases hadj
      exact .inr (.inl ⟨constantLength, index, store, arithmetic, replacement, delta, hwin, rfl⟩)
    | none => exact .inr (.inr rfl)

theorem codeBytes_length {n : Nat} (h : offset + n ≤ chunk.count) :
    (codeBytes chunk offset n).length = n := by
  have hle : n ≤ chunk.code.length - offset := Nat.le_sub_of_add_le' h
  rw [codeBytes, length_take, length_drop, Nat.min_eq_left hle]

/-- a piece at an instruction start: whole instructions, read and written inside the code -/
structure WholePiece (chunk : BytecodeChunk) (offset : Nat) : Prop where
  pos : 0 < (pieceAt chunk offset).out.length
  le : (pieceAt chunk offset).out.length ≤ (pieceAt chunk offset).length
  inside : offset + (pieceAt chunk offset).length ≤ chunk.count
  next : offset + (pieceAt chunk offset).length < chunk.count →
    InstrStart chunk (offset + (pieceAt chunk offset).length)
  image : ∀ i, i < (pieceAt chunk offset).length →
    (pieceAt chunk offset).image i < (pieceAt chunk offset).out.length
  first : (pieceAt chunk offset).image 0 = 0

theorem AdjustLocal.next {chunk : BytecodeChunk} {offset constantLength index store : Nat}
    {arithmetic replacement : OpCode} {delta : Int}
    (h : AdjustLocal chunk offset constantLength index store arithmetic replacement delta)
    (hstart : InstrStart chunk offset) : offset + (2 + constantLength + 1 + store) ≤ chunk.count ∧
      (offset + (2 + constantLength + 1 + store) < chunk.count →
        InstrStart chunk (offset + (2 + constantLength + 1 + store))) := by
  obtain ⟨hcin, hclen, -⟩ := constantAt_cases h.constant
  obtain ⟨hsin, -, hstore⟩ := storeLengthAt_cases h.store
  have hin := h.inside
  have hload : getInstructionLength chunk offset = 2 :=
    getInstructionLength_of_fixed (by omega) h.load rfl
  have h₁ : InstrStart chunk (offset + 2) := hstart.step hload (by omega)
  have h₂ : InstrStart chunk (offset + 2 + constantLength) := h₁.step hclen (by omega)
  have harith : getInstructionLength chunk (offset + 2 + constantLength) = 1 := by
    have hrepl := h.replaced
    have hop := h.operation
    have hlt : offset + 2 + constantLength < chunk.count := by omega
    cases arithmetic <;> first | cases hrepl | exact getInstructionLength_of_fixed hlt hop rfl
  have h₃ : InstrStart chunk (offset + 2 + constantLength + 1) := h₂.step harith (by omega)
  refine ⟨by omega, fun hlt => ?_⟩
  rcases hstore with ⟨rfl, hset⟩ | ⟨rfl, haddr, hswap, hset⟩
  · have hlen : getInstructionLength chunk (offset + 2 + constantLength + 1) = 2 :=
      getInstructionLength_of_fixed (by omega) hset rfl
    have h₄ := h₃.step hlen (by omega)
    rwa [show offset + (2 + constantLength + 1 + 2) = offset + 2 + constantLength + 1 + 2 by omega]
  · have hlen : getInstructionLength chunk (offset + 2 + constantLength + 1) = 2 :=
      getInstructionLength_of_fixed (by omega) haddr rfl
    have h₄ := h₃.step hlen (by omega)
    have hlen₄ : getInstructionLength chunk (offset + 2 + constantLength + 1 + 2) = 1 :=
      getInstructionLength_of_fixed (by omega) hswap rfl
    have h₅ := h₄.step hlen₄ (by omega)
    have hlen₅ : getInstructionLength chunk (offset + 2 + constantLength + 1 + 2 + 1) = 1 :=
      getInstructionLength_of_fixed (by omega) hset rfl
    have h₆ := h₅.step hlen₅ (by omega)
    rwa [show offset + (2 + constantLength + 1 + 4) =
      offset + 2 + constantLength + 1 + 2 + 1 + 1 by omega]

theorem wholePiece (hlayout : Layout chunk) (hstart : InstrStart chunk offset) :
    WholePiece chunk offset := by
  have hlt := hstart.lt
  rcases pieceAt_cases chunk offset with
    ⟨length, index, hcall, he⟩ | ⟨clen, index, store, arith, repl, delta, hadj, he⟩ | he
  · obtain ⟨hcin, hclen, hops⟩ := constantAt_cases hcall.constant
    have hin := hcall.inside
    have hpos : 2 ≤ length := by rcases hops with ⟨-, rfl, -⟩ | ⟨-, rfl, -⟩ <;> omega
    have hout : (codeBytes chunk offset length).length = length := codeBytes_length hcin
    constructor <;> rw [he] <;> dsimp only
    · omega
    · omega
    · omega
    · intro hn
      have h₁ := hstart.step hclen (by omega)
      have hlen : getInstructionLength chunk (offset + length) = 1 + 3 :=
        getInstructionLength_of_fixed (by omega) hcall.call rfl
      have h₂ := h₁.step hlen (by omega)
      rwa [← Nat.add_assoc]
    · intro i hi
      rw [hout]
      split <;> omega
    · rw [if_pos (by omega)]
  · obtain ⟨hin, hnext⟩ := hadj.next hstart
    constructor <;> rw [he] <;> dsimp only
    · exact Nat.two_pos
    · show 2 ≤ _
      omega
    · exact hin
    · exact hnext
    · exact fun _ _ => Nat.two_pos
  · have hin : offset + getInstructionLength chunk offset ≤ chunk.count := hlayout offset hstart
    have hpos : 0 < getInstructionLength chunk offset := decodeInstructionLength_pos chunk offset
    have hout := codeBytes_length hin
    constructor <;> rw [he] <;> dsimp only
    · omega
    · omega
    · exact hin
    · exact .next hstart
    · intro i hi
      rwa [hout]
    · rfl

/-- the loop comes to old offset `r` with new offset `w` -/
inductive Boundary (chunk : BytecodeChunk) : Nat → Nat → Prop where
  | start : Boundary chunk 0 0
  | next {r w : Nat} : Boundary chunk r w → r < chunk.count →
      Boundary chunk (r + (pieceAt chunk r).length) (w + (pieceAt chunk r).out.length)

theorem Boundary.instrStart (hlayout : Layout chunk) (h : Boundary chunk r w)
    (hlt : r < chunk.count) : InstrStart chunk r := by
  induction h with
  | start => exact .first hlt
  | next _ hr ih => exact (wholePiece hlayout (ih hr)).next hlt

theorem Boundary.le (hlayout : Layout chunk) (h : Boundary chunk r w) :
    r ≤ chunk.count ∧ w ≤ r := by
  induction h with
  | start => exact ⟨Nat.zero_le _, Nat.le_refl _⟩
  | next hb hr ih =>
    have hw := wholePiece hlayout (hb.instrStart hlayout hr)
    have hle := hw.le
    exact ⟨hw.inside, by omega⟩

/-- the rounds of the loop from one place to another -/
inductive Rounds (chunk : BytecodeChunk) : Nat → Nat → Nat → Nat → Prop where
  | refl {r w : Nat} : Rounds chunk r w r w
  | step {r w r' w' : Nat} : r < chunk.count →
      Rounds chunk (r + (pieceAt chunk r).length) (w + (pieceAt chunk r).out.length) r' w' →
      Rounds chunk r w r' w'

theorem Rounds.le {r' w' : Nat} (h : Rounds chunk r w r' w') : r ≤ r' ∧ w ≤ w' := by
  induction h with
  | refl => exact ⟨Nat.le_refl _, Nat.le_refl _⟩
  | step _ _ ih => omega

theorem Rounds.next {chunk : BytecodeChunk} {r w r' w' : Nat} (h : Rounds chunk r w r' w')
    (hlt : r' < chunk.count) :
    Rounds chunk r w (r' + (pieceAt chunk r').length) (w' + (pieceAt chunk r').out.length) := by
  induction h with
  | refl => exact .step hlt .refl
  | step hr _ ih => exact .step hr (ih hlt)

theorem Boundary.rounds (h : Boundary chunk r w) : Rounds chunk 0 0 r w := by
  induction h with
  | start => exact .refl
  | next _ hr ih => exact ih.next hr

theorem Rounds.linear {r₀ w₀ r' w' : Nat} (h : Rounds chunk r₀ w₀ r w)
    (h' : Rounds chunk r₀ w₀ r' w') : Rounds chunk r w r' w' ∨ Rounds chunk r' w' r w := by
  induction h with
  | refl => exact .inl h'
  | step hr hrest ih =>
    cases h' with
    | refl => exact .inr (.step hr hrest)
    | step _ hrest' => exact ih hrest'

section
variable {chunk : BytecodeChunk} {r w r' w' : Nat} (h : Boundary chunk r w)
  (h' : Boundary chunk r' w')
include h h'

theorem Boundary.before (hlt : r < r') :
    r + (pieceAt chunk r).length ≤ r' ∧ w + (pieceAt chunk r).out.length ≤ w' := by
  rcases h.rounds.linear h'.rounds with hr | hr
  · cases hr with
    | refl => omega
    | step _ hrest => exact hrest.le
  · have := hr.le
    omega

theorem Boundary.unique (he : r = r') : w = w' := by
  subst he
  rcases h.rounds.linear h'.rounds with hr | hr
  all_goals
    cases hr with
    | refl => rfl
    | step hlt hrest =>
      have hle := hrest.le
      have hpos : 0 < (pieceAt chunk r).length := by
        rcases pieceAt_cases chunk r with
          ⟨length, index, -, he⟩ | ⟨clen, index, store, arith, repl, delta, -, he⟩ | he <;>
          rw [he] <;> dsimp only
        · omega
        · omega
        · exact decodeInstructionLength_pos chunk r
      omega

end

theorem boundary_covers (hlayout : Layout chunk) (k : Nat) (hk : k < chunk.count) :
    ∃ r w, Boundary chunk r w ∧ r ≤ k ∧ k < r + (pieceAt chunk r).length := by
  induction k with
  | zero =>
    have hw := wholePiece hlayout (.first hk)
    have hpos := hw.pos
    have hle := hw.le
    exact ⟨0, 0, .start, Nat.le_refl _, by omega⟩
  | succ k ih =>
    obtain ⟨r, w, hb, hr, hlt⟩ := ih (by omega)
    by_cases hin : k + 1 < r + (pieceAt chunk r).length
    · exact ⟨r, w, hb, by omega, hin⟩
    · have hnext := hb.next (by omega)
      have hend : k + 1 = r + (pieceAt chunk r).length := by omega
      rw [← hend] at hnext
      have hw := wholePiece hlayout (hnext.instrStart hlayout hk)
      have hpos := hw.pos
      have hle := hw.le
      exact ⟨_, _, hnext, Nat.le_refl _, by omega⟩

/-! ## the loop -/

/-- what the loop has done with the pieces before `readIndex` -/
structure LoopInv (chunk : BytecodeChunk) (st : Rewrite) : Prop where
  boundary : Boundary chunk st.readIndex st.code.length
  offsetMap : ∀ r w, Boundary chunk r w → r < st.readIndex → ∀ i, i < (pieceAt chunk r).length →
    st.offsetMap (r + i) = some (w + (pieceAt chunk r).image i)
  code : ∀ r w, Boundary chunk r w → r < st.readIndex → ∀ i, i < (pieceAt chunk r).out.length →
    st.code[w + i]? = (pieceAt chunk r).out[i]?
  jumpFixes : ∀ fix, fix ∈ st.jumpFixes ↔ ∃ r w, Boundary chunk r w ∧ r < st.readIndex ∧
    (pieceAt chunk r).fused = false ∧ fix ∈ jumpFixupAt chunk r w
  absoluteFixes : ∀ fix, fix ∈ st.absoluteFixes ↔ ∃ r w, Boundary chunk r w ∧
    r < st.readIndex ∧ (pieceAt chunk r).fused = false ∧ fix ∈ absoluteFixupAt chunk r w
  changed : st.changed = true ↔ ∃ r w, Boundary chunk r w ∧ r < st.readIndex ∧
    (pieceAt chunk r).fused = true

theorem loopInv_start (chunk : BytecodeChunk) : LoopInv chunk {} where
  boundary := .start
  offsetMap _ _ _ h := absurd h (Nat.not_lt_zero _)
  code _ _ _ h := absurd h (Nat.not_lt_zero _)
  jumpFixes _ := ⟨nofun, fun ⟨_, _, _, h, _⟩ => absurd h (Nat.not_lt_zero _)⟩
  absoluteFixes _ := ⟨nofun, fun ⟨_, _, _, h, _⟩ => absurd h (Nat.not_lt_zero _)⟩
  changed := ⟨nofun, fun ⟨_, _, _, h, _⟩ => absurd h (Nat.not_lt_zero _)⟩

theorem mem_noted {α : Type} (fused : Bool) (old new : List α) (x : α) :
    x ∈ (if fused = true then old else old ++ new) ↔ x ∈ old ∨ fused = false ∧ x ∈ new := by
  cases fused <;> simp

section
variable {chunk : BytecodeChunk} (hlayout : Layout chunk) {st : Rewrite} (h : LoopInv chunk st)
  (hlt : st.readIndex < chunk.count)
include hlayout h hlt

theorem LoopInv.passed {r w : Nat} (hb : Boundary chunk r w) :
    r < (rewriteStep chunk st).readIndex ↔
      r < st.readIndex ∨ r = st.readIndex ∧ w = st.code.length := by
  have hw := wholePiece hlayout (h.boundary.instrStart hlayout hlt)
  have hpos := hw.pos
  have hle := hw.le
  show r < st.readIndex + (pieceAt chunk st.readIndex).length ↔ _
  constructor
  · intro hr
    by_cases hold : r < st.readIndex
    · exact .inl hold
    · by_cases he : r = st.readIndex
      · exact .inr ⟨he, hb.unique h.boundary he⟩
      · have hbefore := h.boundary.before hb (by omega)
        omega
  · omega

theorem LoopInv.passed_exists (P : Nat → Nat → Prop) :
    (∃ r w, Boundary chunk r w ∧ r < (rewriteStep chunk st).readIndex ∧ P r w) ↔
      (∃ r w, Boundary chunk r w ∧ r < st.readIndex ∧ P r w) ∨
        P st.readIndex st.code.length := by
  constructor
  · rintro ⟨r, w, hb, hr, hP⟩
    rcases (h.passed hlayout hlt hb).mp hr with hold | ⟨rfl, rfl⟩
    · exact .inl ⟨r, w, hb, hold, hP⟩
    · exact .inr hP
  · rintro (⟨r, w, hb, hold, hP⟩ | hP)
    · exact ⟨r, w, hb, (h.passed hlayout hlt hb).mpr (.inl hold), hP⟩
    · exact ⟨_, _, h.boundary, (h.passed hlayout hlt h.boundary).mpr (.inr ⟨rfl, rfl⟩), hP⟩

theorem loopInv_step : LoopInv chunk (rewriteStep chunk st) := by
  have hw := wholePiece hlayout (h.boundary.instrStart hlayout hlt)
  have hpassed : ∀ {r w : Nat}, Boundary chunk r w → (r < (rewriteStep chunk st).readIndex ↔
      r < st.readIndex ∨ r = st.readIndex ∧ w = st.code.length) :=
    fun hb => h.passed hlayout hlt hb
  have hhere := h.boundary
  refine ⟨?_, fun r w hb hr i hi => ?_, fun r w hb hr i hi => ?_, fun fix => ?_, fun fix => ?_, ?_⟩
  · show Boundary chunk (st.readIndex + _) (st.code ++ _).length
    rw [length_append]
    exact hhere.next hlt
  · show (if st.readIndex ≤ r + i ∧ r + i < st.readIndex + (pieceAt chunk st.readIndex).length ∧
        r + i < chunk.count then _ else _) = _
    rcases (hpassed hb).mp hr with hold | ⟨rfl, rfl⟩
    · have hbefore := hb.before hhere hold
      rw [if_neg (by omega)]
      exact h.offsetMap r w hb hold i hi
    · have hin := hw.inside
      rw [if_pos (by omega), Nat.add_sub_cancel_left]
  · show (st.code ++ (pieceAt chunk st.readIndex).out)[w + i]? = _
    rcases (hpassed hb).mp hr with hold | ⟨rfl, rfl⟩
    · have hbefore := hb.before hhere hold
      rw [getElem?_append_left (by omega)]
      exact h.code r w hb hold i hi
    · rw [getElem?_append_right (by omega), Nat.add_sub_cancel_left]
  · rw [h.passed_exists hlayout hlt fun r w =>
      (pieceAt chunk r).fused = false ∧ fix ∈ jumpFixupAt chunk r w, ← h.jumpFixes]
    exact mem_noted _ _ _ _
  · rw [h.passed_exists hlayout hlt fun r w =>
      (pieceAt chunk r).fused = false ∧ fix ∈ absoluteFixupAt chunk r w, ← h.absoluteFixes]
    exact mem_noted _ _ _ _
  · rw [h.passed_exists hlayout hlt fun r _ => (pieceAt chunk r).fused = true, ← h.changed]
    show (st.changed || (pieceAt chunk st.readIndex).fused) = true ↔ _
    rw [Bool.or_eq_true]

end

theorem rewriteLoop_inv (hlayout : Layout chunk) (room : Nat) (st : Rewrite) (h : LoopInv chunk st)
    (hroom : chunk.count - st.readIndex ≤ room) : LoopInv chunk (rewriteLoop chunk room st) ∧
      (rewriteLoop chunk room st).readIndex = chunk.count := by
  have hle := (h.boundary.le hlayout).1
  induction room generalizing st with
  | zero => exact ⟨h, by rw [rewriteLoop]; omega⟩
  | succ room ih =>
    rw [rewriteLoop]
    split
    · rename_i hlt
      have hnext := loopInv_step hlayout h hlt
      have hw := wholePiece hlayout (h.boundary.instrStart hlayout hlt)
      have hpos := hw.pos
      have hlen := hw.le
      have hread : (rewriteStep chunk st).readIndex =
          st.readIndex + (pieceAt chunk st.readIndex).length := rfl
      exact ih _ hnext (by omega) (hnext.boundary.le hlayout).1
    · exact ⟨h, by omega⟩

/-! ## the rewritten code -/

/-- what `rewriteCode` produces from code with a proper layout -/
structure Rewritten (chunk : BytecodeChunk) (rw : Rewrite) : Prop where
  finish : Boundary chunk chunk.count rw.code.length
  endMap : rw.offsetMap chunk.count = some rw.code.length
  offsetMap : ∀ r w, Boundary chunk r w → r < chunk.count → ∀ i, i < (pieceAt chunk r).length →
    rw.offsetMap (r + i) = some (w + (pieceAt chunk r).image i)
  code : ∀ r w, Boundary chunk r w → r < chunk.count → ∀ i, i < (pieceAt chunk r).out.length →
    rw.code[w + i]? = (pieceAt chunk r).out[i]?
  jumpFixes : ∀ fix, fix ∈ rw.jumpFixes ↔ ∃ r w, Boundary chunk r w ∧ r < chunk.count ∧
    (pieceAt chunk r).fused = false ∧ fix ∈ jumpFixupAt chunk r w
  absoluteFixes : ∀ fix, fix ∈ rw.absoluteFixes ↔ ∃ r w, Boundary chunk r w ∧
    r < chunk.count ∧ (pieceAt chunk r).fused = false ∧ fix ∈ absoluteFixupAt chunk r w
  changed : rw.changed = true ↔ ∃ r w, Boundary chunk r w ∧ r < chunk.count ∧
    (pieceAt chunk r).fused = true

theorem rewriteCode_spec (hlayout : Layout chunk) : Rewritten chunk (rewriteCode chunk) := by
  obtain ⟨h, hend⟩ := rewriteLoop_inv hlayout chunk.count {} (loopInv_start chunk) (Nat.sub_le _ _)
  have hboundary := h.boundary
  have hmap := h.offsetMap
  have hcode := h.code
  have hjumps := h.jumpFixes
  have habs := h.absoluteFixes
  have hchanged := h.changed
  rw [hend] at hboundary hmap hcode hjumps habs hchanged
  refine ⟨hboundary, update_self _ _ _, fun r w hb hr i hi => ?_, hcode, hjumps, habs, hchanged⟩
  have hw := wholePiece hlayout (hb.instrStart hlayout hr)
  have hin := hw.inside
  show update _ _ _ (r + i) = _
  rw [update_of_ne (by omega)]
  exact hmap r w hb hr i hi

theorem Rewritten.boundary {rw : Rewrite} (h : Rewritten chunk rw) (hlayout : Layout chunk)
    (hb : Boundary chunk r w) : rw.offsetMap r = some w := by
  by_cases hr : r < chunk.count
  · have hw := wholePiece hlayout (hb.instrStart hlayout hr)
    have hpos := hw.pos
    have hle := hw.le
    have := h.offsetMap r w hb hr 0 (by omega)
    rwa [hw.first, Nat.add_zero, Nat.add_zero] at this
  · have hle := (hb.le hlayout).1
    have he : r = chunk.count := by omega
    rw [he, hb.unique h.finish he]
    exact h.endMap

end Pscal
