import Mathlib
import Pscal.Verify.Machine
import Pscal.Verify.Stream

/-!
# One walk of the verifier

The walk of one entry is a worklist search.  `WalkInv` is what holds between two of its visits:
the walk changes only what no other walk owns, and every item it has seen passed its checks and
has all its successors seen or pending.
-/

namespace Pscal

open BytecodeChunk List Function Checks

/-! ## instructions -/

variable {ctx : VCtx} {pc j n : Nat} {eff : Effect} {sym : Option SymbolRef} {st st' : WalkState}
  {x : WorkItem}

theorem walkArrayBounds_count {what : String} (dims cursor dynamic : Nat)
    (h : walkArrayBounds ctx pc what dims cursor = .ok dynamic) :
    dynamic = runtimeDims ctx.chunk dims cursor := by
  induction dims generalizing cursor dynamic with
  | zero => exact (pure_ok.mp h).symm
  | succ dims ih =>
    rw [walkArrayBounds] at h
    rw [runtimeDims]
    by_cases hd : ctx.chunk.u16 cursor = 0xFFFF ∧ ctx.chunk.u16 (cursor + 2) = 0xFFFF
    · rw [if_pos hd] at h ⊢
      obtain ⟨rest, hrest, hdyn⟩ := bind_ok.mp h
      have hdyn : rest + 1 = dynamic := pure_ok.mp hdyn
      rw [← ih _ rest hrest]
      omega
    · rw [if_neg hd] at h ⊢
      obtain ⟨_, _, h⟩ := bind_ok.mp h
      obtain ⟨_, _, h⟩ := bind_ok.mp h
      rw [← ih _ dynamic h]
      omega

theorem walkVariablePayload_count {dynamic : Nat}
    (hop : ctx.chunk.opcode? pc = some .initLocalArray ∨ ctx.chunk.opcode? pc = some
      .initFieldArray) (h : walkVariablePayload ctx pc = .ok dynamic) :
    dynamic = runtimeDims ctx.chunk (ctx.chunk.u8 (pc + 2)) (pc + 3) := by
  rw [walkVariablePayload] at h
  dsimp only at h
  rcases hop with hop | hop <;> rw [hop] at h
  all_goals
    obtain ⟨dyn, hb, h⟩ := bind_ok.mp h
    obtain ⟨_, _, h⟩ := bind_ok.mp h
    rw [← pure_ok.mp h]
    exact walkArrayBounds_count _ _ dyn hb

/-- the effect of an instruction, as the walk sees it, is its use of the stack -/
structure Effect.Agrees (eff : Effect) (use : StackUse) : Prop where
  req : eff.req = use.pops
  unknown : eff.unknownAfter = use.pushes.isNone
  delta : ∀ p, use.pushes = some p → eff.delta = (p : Int) - use.pops

theorem Effect.agrees_known {pops pushes : Nat} (hreq : eff.req = pops)
    (hdelta : eff.delta = (pushes : Int) - pops) (hknown : eff.unknownAfter = false) :
    eff.Agrees ⟨pops, some pushes⟩ :=
  ⟨hreq, hknown, fun p hp => by cases hp; exact hdelta⟩

theorem Effect.agrees_unknown {pops : Nat} (hreq : eff.req = pops)
    (hunknown : eff.unknownAfter = true) : eff.Agrees ⟨pops, none⟩ :=
  ⟨hreq, hunknown, nofun⟩

theorem classifyInstruction_agrees {op : OpCode} (hop : ctx.chunk.opcode? pc = some op)
    (h : classifyInstruction ctx pc (getInstructionLength ctx.chunk pc) op sym = .ok eff) :
    eff.Agrees (stackUse ctx.chunk ctx.procedures ctx.limits.getBuiltinType sym pc op) := by
  unfold classifyInstruction at h
  dsimp only at h
  split at h
  -- RETURN, EXIT
  iterate 2
    cases h
    refine Effect.agrees_known ?_ (by dsimp only; omega) rfl
    dsimp only [resultCount]
    split <;> rfl
  -- GET_ELEMENT_ADDRESS, LOAD_ELEMENT_VALUE
  iterate 2
    cases h
    exact Effect.agrees_known (by simp) (by simp) rfl
  -- INIT_LOCAL_ARRAY, INIT_FIELD_ARRAY
  · obtain ⟨dyn, hdyn, heff⟩ := bind_ok.mp h
    have hcount := walkVariablePayload_count (.inl hop) hdyn
    cases heff
    exact Effect.agrees_known (by rw [hcount]) (by rw [hcount]; simp) rfl
  · obtain ⟨dyn, hdyn, heff⟩ := bind_ok.mp h
    have hcount := walkVariablePayload_count (.inr hop) hdyn
    cases heff
    exact Effect.agrees_known (by rw [hcount]; simp) (by rw [hcount]; simp) rfl
  -- CALL_BUILTIN_PROC, CALL_BUILTIN
  · cases h
    exact Effect.agrees_known rfl (by simp) rfl
  · cases h
    refine Effect.agrees_known rfl ?_ rfl
    cases hname : constString ctx.chunk (ctx.chunk.u16 (pc + 1)) with
    | none => simp
    | some name =>
      dsimp only
      split <;> simp
  -- CALL_USER_PROC, CALL
  iterate 2
    split at h <;> rename_i hcallee <;> dsimp only [stackUse] <;> rw [hcallee] <;> cases h
    · refine Effect.agrees_known rfl ?_ rfl
      rename_i r
      dsimp only [resultCount, isFunction]
      by_cases hvoid : (ctx.procedures.heap r).type = .void
      · simp [hvoid]
      · simp [hvoid]
        omega
    · exact Effect.agrees_unknown rfl rfl
  -- CALL_INDIRECT, CALL_METHOD
  iterate 2
    cases h
    exact Effect.agrees_unknown (by simp) rfl
  -- PROC_CALL_INDIRECT, CALL_HOST
  · cases h
    exact Effect.agrees_known (by simp) (by simp) rfl
  · cases h
    exact Effect.agrees_unknown rfl rfl
  -- the others: the opcode table
  · obtain ⟨hneg, h⟩ := ite_error_ok.mp h
    push Not at hneg
    have huse : stackUse ctx.chunk ctx.procedures ctx.limits.getBuiltinType sym pc op =
        ⟨op.info.stackIn.toNat, some op.info.stackOut.toNat⟩ := by
      unfold stackUse
      dsimp only
      split <;> first | rfl | contradiction
    rw [huse]
    cases h
    exact Effect.agrees_known (by dsimp only; omega) (by dsimp only; omega) rfl

theorem mem_flowTargets {chunk : BytecodeChunk} {op : OpCode} {t : Int}
    (hop : chunk.opcode? pc = some op) :
    t ∈ flowTargets chunk pc (getInstructionLength chunk pc) op ↔ Flow chunk pc t := by
  constructor
  · intro ht
    unfold flowTargets at ht
    split at ht
    iterate 3 exact absurd ht not_mem_nil
    · rw [mem_singleton.mp ht]
      exact .jump hop (.inl rfl)
    · rcases mem_cons.mp ht with rfl | ht
      · exact .jump hop (.inr rfl)
      · rw [mem_singleton.mp ht]
        exact .fall hop rfl (by simp)
    · rw [mem_singleton.mp ht]
      rename_i hret hexit hhalt hjump _
      refine .fall hop ?_ hjump
      unfold OpCode.isTerminal
      split <;> first | rfl | contradiction
  · intro hflow
    cases hflow with
    | fall hop' hterm hjump =>
      cases hop.symm.trans hop'
      unfold flowTargets
      split <;> simp_all [OpCode.isTerminal]
    | jump hop' hjump =>
      cases hop.symm.trans hop'
      rcases hjump with rfl | rfl
      · exact mem_singleton.mpr rfl
      · exact mem_cons_self

theorem flowTargets_length (chunk : BytecodeChunk) (pc len : Nat) (op : OpCode) :
    (flowTargets chunk pc len op).length ≤ 2 := by
  unfold flowTargets
  split <;> simp

theorem nextDepth_ok {limits : VmLimits} {name : String} {use : StackUse} {d d' : Depth}
    (hagree : eff.Agrees use) (h : nextDepth limits pc name eff d = .ok d') :
    d' = d.after use ∧ (∀ v, d = .known v → (use.pops : Int) ≤ v) ∧
      (∀ v, d' = .known v → v ≤ limits.stackCeiling) := by
  obtain ⟨pops, pushes⟩ := use
  cases d with
  | unknown =>
    cases h
    refine ⟨?_, nofun, nofun⟩
    cases pushes <;> rfl
  | known d =>
    obtain ⟨hreq, h⟩ := ite_error_ok.mp h
    have hpops : ∀ v, Depth.known d = .known v → (pops : Int) ≤ v := by
      intro v hv
      cases hv
      rw [← hagree.req]
      exact Int.not_lt.mp hreq
    cases pushes with
    | none =>
      have hunknown : eff.unknownAfter = true := hagree.unknown
      rw [if_pos hunknown] at h
      cases h
      exact ⟨rfl, hpops, nofun⟩
    | some p =>
      have hknown : ¬ eff.unknownAfter = true := by simp [hagree.unknown]
      rw [if_neg hknown] at h
      obtain ⟨_, h⟩ := ite_error_ok.mp h
      obtain ⟨hceil, h⟩ := ite_error_ok.mp h
      cases h
      have hdelta : eff.delta = (p : Int) - pops := hagree.delta p rfl
      refine ⟨?_, hpops, ?_⟩
      · show Depth.known (d + eff.delta) = .known (d - pops + p)
        rw [hdelta]
        congr 1
        omega
      · intro v hv
        cases hv
        exact Int.not_lt.mp hceil

/-! ## the walk state -/

/-- the item has been checked: its instruction was met at its depth -/
def WalkState.Seen (st : WalkState) (x : WorkItem) : Prop :=
  match x.depth with
  | .known d => st.visitedKnown x.pc = true ∧ st.depths x.pc = d
  | .unknown => st.visitedUnknown x.pc = true

/-- checked in the walk `j` -/
def WalkState.SeenBy (st : WalkState) (j : Nat) (x : WorkItem) : Prop :=
  st.Seen x ∧ st.owner x.pc = j

def WalkState.visited (st : WalkState) (pc : Nat) : Prop :=
  st.visitedKnown pc = true ∨ st.visitedUnknown pc = true

theorem WalkState.Seen.visited (h : st.Seen x) : st.visited x.pc := by
  obtain ⟨pc, d⟩ := x
  cases d with
  | known d => exact .inl h.1
  | unknown => exact .inr h

/-- two walk states that say the same about `pc` -/
structure SameAt (st st' : WalkState) (pc : Nat) : Prop where
  owner : st'.owner pc = st.owner pc
  known : st'.visitedKnown pc = st.visitedKnown pc
  unknown : st'.visitedUnknown pc = st.visitedUnknown pc
  depths : st'.depths pc = st.depths pc

theorem SameAt.refl (st : WalkState) (pc : Nat) : SameAt st st pc := ⟨rfl, rfl, rfl, rfl⟩

theorem SameAt.trans {a b c : WalkState} (hab : SameAt a b pc) (hbc : SameAt b c pc) :
    SameAt a c pc :=
  ⟨hbc.owner.trans hab.owner, hbc.known.trans hab.known, hbc.unknown.trans hab.unknown,
    hbc.depths.trans hab.depths⟩

theorem SameAt.visited (h : SameAt st st' pc) : st'.visited pc ↔ st.visited pc := by
  rw [WalkState.visited, WalkState.visited, h.known, h.unknown]

theorem SameAt.seenBy (h : SameAt st st' x.pc) : st'.SeenBy j x ↔ st.SeenBy j x := by
  obtain ⟨pc, d⟩ := x
  unfold WalkState.SeenBy WalkState.Seen
  cases d with
  | known d => rw [h.owner, h.known, h.depths]
  | unknown => rw [h.owner, h.unknown]

/-- `st'` is `st` after walk `j` has checked the item `x` -/
structure Marked (j : Nat) (x : WorkItem) (st st' : WalkState) : Prop where
  frame : ∀ pc, pc ≠ x.pc → SameAt st st' pc
  owner : st'.owner x.pc = j
  seen : ∀ y, st'.SeenBy j y ↔ st.SeenBy j y ∨ y = x

/-- the visit flags below `n` that are not set -/
def unvisited (n : Nat) (st : WalkState) : Nat :=
  ∑ pc ∈ Finset.range n,
    ((if st.visitedKnown pc then 0 else 1) + (if st.visitedUnknown pc then 0 else 1))

theorem unvisited_le (n : Nat) (st : WalkState) : unvisited n st ≤ 2 * n := by
  have hle : unvisited n st ≤ (Finset.range n).card • 2 := by
    apply Finset.sum_le_card_nsmul
    intro pc _
    split <;> split <;> omega
  rw [Finset.card_range, Nat.nsmul_eq_mul] at hle
  omega

theorem unvisited_mark (hpc : pc < n) (hframe : ∀ q, q ≠ pc → SameAt st st' q)
    (hmark : (st.visitedKnown pc = false ∧ st'.visitedKnown pc = true ∧ st'.visitedUnknown pc =
      st.visitedUnknown pc) ∨ (st.visitedUnknown pc = false ∧ st'.visitedUnknown pc = true ∧
      st'.visitedKnown pc = st.visitedKnown pc)) : unvisited n st' + 1 ≤ unvisited n st := by
  have hat : (if st'.visitedKnown pc then 0 else 1) + (if st'.visitedUnknown pc then 0 else 1) <
      (if st.visitedKnown pc then 0 else 1) + (if st.visitedUnknown pc then 0 else 1) := by
    rcases hmark with ⟨h, h', hsame⟩ | ⟨h, h', hsame⟩
    · rw [h, h', hsame]
      simp
    · rw [h, h', hsame]
      simp
  show unvisited n st' < unvisited n st
  apply Finset.sum_lt_sum
  · intro q _
    by_cases hq : q = pc
    · rw [hq]
      exact hat.le
    · rw [(hframe q hq).known, (hframe q hq).unknown]
  · exact ⟨pc, Finset.mem_range.mpr hpc, hat⟩

theorem markVisited_none (h : markVisited st j x = .ok none) : st.Seen x := by
  obtain ⟨pc, d⟩ := x
  cases d with
  | known d =>
    unfold markVisited at h
    dsimp only at h
    split at h <;> rename_i hv
    · exact ⟨hv, by simpa using (ite_error_ok.mp h).1⟩
    · cases h
  | unknown =>
    unfold markVisited at h
    dsimp only at h
    split at h <;> rename_i hv
    · exact hv
    · cases h

theorem markVisited_some (h : markVisited st j x = .ok (some st')) (hlt : x.pc < n)
    (howner : st.visited x.pc → st.owner x.pc = j) :
    Marked j x st st' ∧ unvisited n st' + 1 ≤ unvisited n st := by
  obtain ⟨pc, d⟩ := x
  unfold markVisited at h
  dsimp only at h hlt howner
  have hother : ∀ {s : WalkState}, (∀ q, q ≠ pc → SameAt st s q) → ∀ y : WorkItem, y.pc ≠ pc →
      (s.SeenBy j y ↔ st.SeenBy j y ∨ y = ⟨pc, d⟩) := by
    intro s hframe y hy
    rw [(hframe _ hy).seenBy]
    refine ⟨.inl, fun h => h.resolve_right ?_⟩
    rintro rfl
    exact hy rfl
  cases d with
  | known d =>
    dsimp only at h
    split at h <;> rename_i hv
    · obtain ⟨_, h⟩ := ite_error_ok.mp h
      cases h
    · have hv : st.visitedKnown pc = false := by simpa using hv
      cases h
      have hframe : ∀ q, q ≠ pc → SameAt st { st with
          owner := update st.owner pc j
          visitedKnown := update st.visitedKnown pc true
          depths := update st.depths pc d } q := by
        intro q hq
        constructor <;> simp [update_of_ne hq]
      refine ⟨⟨hframe, by simp, fun y => ?_⟩, unvisited_mark hlt hframe (.inl ⟨hv, by simp, rfl⟩)⟩
      by_cases hy : y.pc = pc
      · obtain ⟨ypc, e⟩ := y
        cases hy
        cases e with
        | known e =>
          simp [WalkState.SeenBy, WalkState.Seen, hv, eq_comm]
        | unknown =>
          have hst : st.visitedUnknown ypc = true → st.owner ypc = j := fun hu => howner (.inr hu)
          simpa [WalkState.SeenBy, WalkState.Seen] using hst
      · exact hother hframe y hy
  | unknown =>
    dsimp only at h
    split at h <;> rename_i hv
    · cases h
    · have hv : st.visitedUnknown pc = false := by simpa using hv
      cases h
      have hframe : ∀ q, q ≠ pc → SameAt st { st with
          owner := update st.owner pc j
          visitedUnknown := update st.visitedUnknown pc true } q := by
        intro q hq
        constructor <;> simp [update_of_ne hq]
      refine ⟨⟨hframe, by simp, fun y => ?_⟩, unvisited_mark hlt hframe (.inr ⟨hv, by simp, rfl⟩)⟩
      by_cases hy : y.pc = pc
      · obtain ⟨ypc, e⟩ := y
        cases hy
        cases e with
        | known e =>
          have hst : st.visitedKnown ypc = true → st.owner ypc = j := fun hu => howner (.inl hu)
          simp only [WalkState.SeenBy, WalkState.Seen, update_self]
          simpa using fun hu _ => hst hu
        | unknown =>
          simp [WalkState.SeenBy, WalkState.Seen, hv]
      · exact hother hframe y hy

/-! ## one visit -/

/-- the item passed every check of its instruction -/
structure Sound (ctx : VCtx) (sym : Option SymbolRef) (x : WorkItem) : Prop where
  start : InstrStart ctx.chunk x.pc
  ceiling : ∀ v, x.depth = .known v → v ≤ ctx.limits.stackCeiling
  flow : ∀ t, Flow ctx.chunk x.pc t → ∃ n : Nat, t = n ∧ InstrStart ctx.chunk n
  pops : ∀ op v, ctx.chunk.opcode? x.pc = some op → x.depth = .known v →
    ((stackUse ctx.chunk ctx.procedures ctx.limits.getBuiltinType sym x.pc op).pops : Int) ≤ v

/-- what every pending item of walk `j` satisfies -/
structure Admitted (ctx : VCtx) (j : Nat) (st : WalkState) (x : WorkItem) : Prop where
  start : InstrStart ctx.chunk x.pc
  ceiling : ∀ v, x.depth = .known v → v ≤ ctx.limits.stackCeiling
  owner : st.owner x.pc = 0 ∨ st.owner x.pc = j

/-- the machine of the routine `sym` steps from `x` to `y` -/
def Next (ctx : VCtx) (sym : Option SymbolRef) (x y : WorkItem) : Prop :=
  Step ctx.chunk ctx.procedures ctx.limits.getBuiltinType sym ⟨x.pc, x.depth⟩ ⟨y.pc, y.depth⟩

theorem addSuccessor_ok (hs : ctx.Scanned) {entries : List AddrSym} {owner : Nat → Nat}
    {name : String} {t : Int} (h : addSuccessor ctx entries owner j pc name t = .ok n) :
    InstrStart ctx.chunk n ∧ t = n ∧ (owner n = 0 ∨ owner n = j) := by
  unfold addSuccessor at h
  obtain ⟨hb, h⟩ := ite_error_ok.mp h
  obtain ⟨hstart, ht⟩ := boundary_int hs hb
  dsimp only at h
  split at h <;> rename_i howner
  · split at h <;> cases h
  · cases h
    exact ⟨hstart, ht, by tauto⟩

/-- a round of the walk's loop: the item was checked before, or its checks pass now and every
successor is handed out -/
theorem walkItem_ok (hs : ctx.Scanned) {entries : List AddrSym} {ys : List WorkItem}
    (h : walkItem ctx entries j sym st x = .ok (st', ys)) (hx : Admitted ctx j st x)
    (hwhole : WholeAt ctx.chunk x.pc) (howner : st.visited x.pc → st.owner x.pc = j) :
    Marked j x st st' ∧
      ((st.SeenBy j x ∧ ys = [] ∧ unvisited ctx.chunk.count st' = unvisited ctx.chunk.count st) ∨
        (Sound ctx sym x ∧ (∀ y, Next ctx sym x y → y ∈ ys) ∧ (∀ y ∈ ys, Admitted ctx j st' y) ∧
          ys.length ≤ 2 ∧
          unvisited ctx.chunk.count st' + 1 ≤ unvisited ctx.chunk.count st)) := by
  obtain ⟨o, hmark, h⟩ := bind_ok.mp h
  cases o with
  | none =>
    cases h
    have hseen : st.Seen x := markVisited_none hmark
    have hown : st.owner x.pc = j := howner hseen.visited
    have hsame : { st with owner := update st.owner x.pc j } = st := by
      rw [← hown, update_eq_self]
    rw [hsame]
    refine ⟨⟨fun pc _ => SameAt.refl st pc, hown, fun y => ⟨.inl, ?_⟩⟩,
      .inl ⟨⟨hseen, hown⟩, rfl, rfl⟩⟩
    rintro (hy | rfl)
    · exact hy
    · exact ⟨hseen, hown⟩
  | some st₁ =>
    obtain ⟨op, hop⟩ := hwhole.defined
    rw [hop] at h
    dsimp only at h
    obtain ⟨eff, heff, h⟩ := bind_ok.mp h
    obtain ⟨depth, hdepth, h⟩ := bind_ok.mp h
    obtain ⟨succ, hsucc, h⟩ := bind_ok.mp h
    cases h
    obtain ⟨hmarked, hμ⟩ := markVisited_some hmark hx.start.lt howner
    obtain ⟨hafter, hpops, hceil⟩ := nextDepth_ok (classifyInstruction_agrees hop heff) hdepth
    refine ⟨hmarked, .inr ⟨⟨hx.start, hx.ceiling, ?_, ?_⟩, ?_, ?_, ?_, hμ⟩⟩
    · intro t ht
      obtain ⟨n, _, hn⟩ := mapM_mem hsucc ((mem_flowTargets hop).mpr ht)
      obtain ⟨hstart, heq, _⟩ := addSuccessor_ok hs hn
      exact ⟨n, heq, hstart⟩
    · intro op' v hop' hv
      cases hop.symm.trans hop'
      exact hpops v hv
    · intro y hy
      obtain ⟨op', hop', hflow, hd⟩ := Step.inv hy
      cases hop.symm.trans hop'
      obtain ⟨n, hn, hsuccessor⟩ := mapM_mem hsucc ((mem_flowTargets hop).mpr hflow)
      obtain ⟨_, hpc, _⟩ := addSuccessor_ok hs hsuccessor
      obtain ⟨ypc, yd⟩ := y
      refine List.mem_map.mpr ⟨n, hn, ?_⟩
      have hyd : yd = depth := hd.trans hafter.symm
      have hypc : ypc = n := Int.ofNat.inj hpc
      rw [hyd, hypc]
    · intro y hy
      obtain ⟨n, hn, rfl⟩ := List.mem_map.mp hy
      obtain ⟨t, _, ht⟩ := mem_mapM hsucc hn
      obtain ⟨hstart, _, hown⟩ := addSuccessor_ok hs ht
      exact ⟨hstart, hceil, hown⟩
    · rw [length_map, ← (mapM_ok.mp hsucc).length_eq]
      exact flowTargets_length _ _ _ _

/-! ## the walk -/

/-- What holds between two visits of walk `j` that began in the state `st₀` with the item
`first`; `w` is the stack of pending items. -/
structure WalkInv (ctx : VCtx) (sym : Option SymbolRef) (j : Nat) (st₀ : WalkState)
    (first : WorkItem) (st : WalkState) (w : List WorkItem) : Prop where
  /-- what another walk owns stays as it is -/
  frame : ∀ pc, st₀.owner pc ≠ 0 → st₀.owner pc ≠ j → SameAt st₀ st pc
  owner : ∀ pc, st.owner pc = st₀.owner pc ∨ st.owner pc = j
  visited : ∀ pc, st.visited pc → st₀.visited pc ∨ st.owner pc = j
  pending : ∀ x ∈ w, Admitted ctx j st x
  sound : ∀ x, st.SeenBy j x → Sound ctx sym x
  explored : Worklist.Explored (st.SeenBy j) (Next ctx sym) w
  first : st.SeenBy j first ∨ first ∈ w

/-- before walk `j` nothing it may own has been visited -/
def Fresh (j : Nat) (st : WalkState) : Prop :=
  ∀ pc, st.owner pc = 0 ∨ st.owner pc = j → ¬ st.visited pc

theorem WalkInv.begin {first : WorkItem} (hfresh : Fresh j st) (hfirst : Admitted ctx j st first) :
    WalkInv ctx sym j st first st [first] where
  frame := fun pc _ _ => SameAt.refl st pc
  owner := fun pc => .inl rfl
  visited := fun pc h => .inl h
  pending := by
    intro x hx
    rw [mem_singleton.mp hx]
    exact hfirst
  sound := fun x hx => absurd hx.1.visited (hfresh x.pc (.inr hx.2))
  explored := fun x hx => absurd hx.1.visited (hfresh x.pc (.inr hx.2))
  first := .inr (mem_singleton.mpr rfl)

section
variable {ctx : VCtx} {entries : List AddrSym} {sym : Option SymbolRef} {j : Nat}
  {st₀ : WalkState} {first : WorkItem} (hfresh : Fresh j st₀)
include hfresh

variable {st : WalkState}

theorem WalkInv.owner_of_visited {w : List WorkItem} {x : WorkItem}
    (hinv : WalkInv ctx sym j st₀ first st w) (hx : x ∈ w) (hv : st.visited x.pc) :
    st.owner x.pc = j := by
  rcases hinv.visited x.pc hv with hv₀ | hown
  · have h0 : st₀.owner x.pc ≠ 0 := fun h => hfresh _ (.inl h) hv₀
    have hj : st₀.owner x.pc ≠ j := fun h => hfresh _ (.inr h) hv₀
    have hsame : st.owner x.pc = st₀.owner x.pc := (hinv.frame _ h0 hj).owner
    rcases (hinv.pending x hx).owner with h | h
    · exact absurd (hsame.symm.trans h) h0
    · exact h
  · exact hown

/-- One visit keeps the invariant, and pays for what it pushes: two items at most, and only
when it sets a visit flag. -/
theorem WalkInv.visit (hs : ctx.Scanned) {st' : WalkState} {x : WorkItem} {w ys : List WorkItem}
    (hinv : WalkInv ctx sym j st₀ first st (x :: w))
    (h : walkItem ctx entries j sym st x = .ok (st', ys)) :
    ys.length + 2 * unvisited ctx.chunk.count st' ≤ 2 * unvisited ctx.chunk.count st ∧
      WalkInv ctx sym j st₀ first st' (ys.reverse ++ w) := by
  have hx : Admitted ctx j st x := hinv.pending x mem_cons_self
  obtain ⟨hmarked, hcase⟩ := walkItem_ok hs h hx
    (verifyInstructionStream_whole hs.stream hx.start)
    (hinv.owner_of_visited hfresh mem_cons_self)
  have hseen' : st'.SeenBy j x := (hmarked.seen x).mpr (.inr rfl)
  have hkeep : ∀ y, st.SeenBy j y ∨ y ∈ x :: w → st'.SeenBy j y ∨ y ∈ ys.reverse ++ w := by
    rintro y (hy | hy)
    · exact .inl ((hmarked.seen y).mpr (.inl hy))
    · rcases mem_cons.mp hy with rfl | hy
      · exact .inl hseen'
      · exact .inr (mem_append_right _ hy)
  refine ⟨?_, ?_, ?_, ?_, ?_, ?_, ?_, hkeep _ hinv.first⟩
  · rcases hcase with ⟨_, rfl, hμ⟩ | ⟨_, _, _, hlen, hμ⟩
    · rw [length_nil]
      omega
    · omega
  · intro pc h0 hj
    have hsame : SameAt st₀ st pc := hinv.frame pc h0 hj
    have hne : pc ≠ x.pc := by
      rintro rfl
      rcases hx.owner with h | h
      · exact h0 (hsame.owner.symm.trans h)
      · exact hj (hsame.owner.symm.trans h)
    exact hsame.trans (hmarked.frame pc hne)
  · intro pc
    by_cases hpc : pc = x.pc
    · rw [hpc]
      exact .inr hmarked.owner
    · rw [(hmarked.frame pc hpc).owner]
      exact hinv.owner pc
  · intro pc hv
    by_cases hpc : pc = x.pc
    · rw [hpc]
      exact .inr hmarked.owner
    · have hsame := hmarked.frame pc hpc
      rw [hsame.owner]
      exact hinv.visited pc (hsame.visited.mp hv)
  · intro y hy
    rcases mem_append.mp hy with hy | hy
    · rcases hcase with ⟨_, rfl, _⟩ | ⟨_, _, hadm, _⟩
      · exact absurd hy not_mem_nil
      · exact hadm y (mem_reverse.mp hy)
    · obtain ⟨hstart, hceil, hown⟩ := hinv.pending y (mem_cons_of_mem _ hy)
      refine ⟨hstart, hceil, ?_⟩
      by_cases hpc : y.pc = x.pc
      · rw [hpc]
        exact .inr hmarked.owner
      · rw [(hmarked.frame _ hpc).owner]
        exact hown
  · intro y hy
    rcases (hmarked.seen y).mp hy with hy | rfl
    · exact hinv.sound y hy
    · rcases hcase with ⟨hy, _⟩ | ⟨hsound, _⟩
      · exact hinv.sound y hy
      · exact hsound
  · intro y hy z hz
    rcases (hmarked.seen y).mp hy with hy | rfl
    · exact hkeep z (hinv.explored y hy z hz)
    · rcases hcase with ⟨hy, _⟩ | ⟨_, hnext, _⟩
      · exact hkeep z (hinv.explored y hy z hz)
      · exact .inr (mem_append_left _ (mem_reverse.mpr (hnext z hz)))

theorem verifyWalk_run (entries : List AddrSym) (sym : Option SymbolRef) (hs : ctx.Scanned)
    (hfirst : Admitted ctx j st₀ first) :
    ∃ r, Worklist.run (worklistCap ctx.chunk) (walkItem ctx entries j sym)
      (worklistCap ctx.chunk) st₀ [first] = some r := by
  have hμ := unvisited_le ctx.chunk.count st₀
  have hroom : [first].length + 2 * unvisited ctx.chunk.count st₀ ≤ worklistCap ctx.chunk := by
    rw [length_singleton, worklistCap]
    omega
  refine Worklist.run_isSome _ _ (WalkInv ctx sym j st₀ first)
    (fun st => 2 * unvisited ctx.chunk.count st) ?_ _ _ _ (.begin hfresh hfirst) hroom hroom
  intro st x w st' ys hinv hv
  exact hinv.visit hfresh hs hv

theorem verifyWalk_inv (hs : ctx.Scanned) {entry : AddrSym}
    (hfirst : Admitted ctx j st₀ ⟨entry.addr, .known 0⟩)
    (h : verifyWalk ctx entries j entry st₀ = .ok st) :
    WalkInv ctx entry.sym j st₀ ⟨entry.addr, .known 0⟩ st [] := by
  unfold verifyWalk at h
  dsimp only at h
  obtain ⟨r, hr⟩ := verifyWalk_run hfresh entries entry.sym hs hfirst
  rw [hr] at h
  cases h
  have hμ := unvisited_le ctx.chunk.count st₀
  refine Worklist.run_invariant _ _ (WalkInv ctx entry.sym j st₀ ⟨entry.addr, .known 0⟩)
    (fun st => 2 * unvisited ctx.chunk.count st) ?_ _ _ _ _ (.begin hfresh hfirst) ?_ hr
  · intro st x w st' ys hinv hv
    exact hinv.visit hfresh hs hv
  · rw [length_singleton, worklistCap]
    omega

end

end Pscal
