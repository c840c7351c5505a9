import Pscal.Verify.Sound

/-!
# The worklist of a walk

* `processed`  how often a walk has processed an offset;
* `verifyWalk_rounds`  the worklist has room for every successor, and the walk visits what its entry
  reaches.
-/

namespace Pscal

open BytecodeChunk List Function

variable {ctx : VCtx} {entries : List AddrSym} {j : Nat} {sym : Option SymbolRef}
  {st st' : WalkState} {x : WorkItem}

def WalkState.skips (st : WalkState) (x : WorkItem) : Bool :=
  match x.depth with
  | .known _ => st.visitedKnown x.pc
  | .unknown => st.visitedUnknown x.pc

def processed (log : List (WalkState × WorkItem)) (pc : Nat) : Nat :=
  log.countP fun p => p.2.pc = pc ∧ p.1.skips p.2 = false

def WalkState.flags (st : WalkState) (pc : Nat) : Nat :=
  (st.visitedKnown pc).toNat + (st.visitedUnknown pc).toNat

theorem WalkState.flags_le (st : WalkState) (pc : Nat) : st.flags pc ≤ 2 := by
  have hk := Bool.toNat_le (st.visitedKnown pc)
  have hu := Bool.toNat_le (st.visitedUnknown pc)
  unfold WalkState.flags
  omega

theorem WalkState.flags_lt (h : st.skips x = false) : st.flags x.pc < 2 := by
  obtain ⟨pc, d⟩ := x
  have hk := Bool.toNat_le (st.visitedKnown pc)
  have hu := Bool.toNat_le (st.visitedUnknown pc)
  unfold WalkState.flags
  cases d with
  | known d =>
    have h : st.visitedKnown pc = false := h
    dsimp only
    rw [h, Bool.toNat_false]
    omega
  | unknown =>
    have h : st.visitedUnknown pc = false := h
    dsimp only
    rw [h, Bool.toNat_false]
    omega

theorem markVisited_skips (h : markVisited st j x = .ok none) : st.skips x = true := by
  obtain ⟨pc, d⟩ := x
  cases d with
  | known d => exact (markVisited_none h).1
  | unknown => exact markVisited_none h

theorem markVisited_flags (h : markVisited st j x = .ok (some st')) (pc : Nat) :
    st.skips x = false ∧ st'.flags pc = st.flags pc + if x.pc = pc then 1 else 0 := by
  obtain ⟨p, d⟩ := x
  unfold markVisited at h
  dsimp only at h
  cases d with
  | known d =>
    dsimp only at h
    split at h <;> rename_i hv
    · cases (Checks.ite_error_ok.mp h).2
    · have hv : st.visitedKnown p = false := by simpa using hv
      cases h
      refine ⟨hv, ?_⟩
      by_cases hp : p = pc
      · rw [← hp]
        simp [WalkState.flags, hv, Nat.add_comm]
      · simp [WalkState.flags, update_of_ne (Ne.symm hp), hp]
  | unknown =>
    dsimp only at h
    split at h <;> rename_i hv
    · cases h
    · have hv : st.visitedUnknown p = false := by simpa using hv
      cases h
      refine ⟨hv, ?_⟩
      by_cases hp : p = pc
      · rw [← hp]
        simp [WalkState.flags, hv]
      · simp [WalkState.flags, update_of_ne (Ne.symm hp), hp]

/-- a round that processes its item sets one of the two flags -/
theorem walkItem_flags {ys : List WorkItem} (h : walkItem ctx entries j sym st x = .ok (st', ys))
    (pc : Nat) : st'.flags pc =
      st.flags pc + if x.pc = pc ∧ st.skips x = false then 1 else 0 := by
  obtain ⟨o, hmark, h⟩ := Checks.bind_ok.mp h
  cases o with
  | none =>
    cases h
    rw [if_neg (by simp [markVisited_skips hmark])]
    rfl
  | some st₁ =>
    obtain ⟨hskips, hflags⟩ := markVisited_flags hmark pc
    have hst : st₁ = st' := by
      dsimp only at h
      split at h
      · cases h
        rfl
      · obtain ⟨_, _, h⟩ := Checks.bind_ok.mp h
        obtain ⟨_, _, h⟩ := Checks.bind_ok.mp h
        obtain ⟨_, _, h⟩ := Checks.bind_ok.mp h
        cases h
        rfl
    rw [← hst, hflags, hskips]
    simp

/-- the item that the walk takes next included -/
theorem Rounds.processed_le {cap : Nat} {st₀ : WalkState} {w₀ w : List WorkItem}
    {log : List (WalkState × WorkItem)}
    (h : Worklist.Rounds cap (walkItem ctx entries j sym) st₀ w₀ log st w) (x : WorkItem)
    (pc : Nat) : processed (log ++ [(st, x)]) pc ≤ 2 := by
  have hflags : st₀.flags pc + processed log pc = st.flags pc := by
    induction h with
    | start => rfl
    | round before hv ih =>
      rw [walkItem_flags hv, ← ih, processed, countP_append, countP_singleton]
      simp [processed, Nat.add_assoc]
  rw [processed, countP_append, countP_singleton, ← processed]
  have hle := st.flags_le pc
  split <;> rename_i hx
  · obtain ⟨hpc, hskips⟩ : x.pc = pc ∧ st.skips x = false := by simpa using hx
    have hlt := WalkState.flags_lt hskips
    rw [hpc] at hlt
    omega
  · omega

/-! ## the walk of an entry -/

/-- the verifier is about to walk the entry `e`, the one at `i`, in the state `st` -/
structure Walking (ctx : VCtx) (entries : List AddrSym) (i : Nat) (e : AddrSym)
    (st : WalkState) : Prop where
  nonempty : 0 < ctx.chunk.count
  stream : verifyInstructionStream ctx.chunk = .ok ctx.starts
  operands : verifyOperands ctx = .ok ()
  deduped : dedupeEntries ctx [] (collectedEntries ctx) = .ok entries
  entry : entries[i]? = some e
  before : verifyWalks ctx entries 0 (entries.take i) (initialWalkState entries) = .ok st

section
variable {i : Nat} {e : AddrSym} (h : Walking ctx entries i e st)
include h

theorem Walking.entriesOf : EntriesOf ctx entries :=
  dedupeEntries_entries ⟨h.stream⟩ h.nonempty h.operands h.deduped

theorem Walking.inv : WalksInv ctx entries i st := by
  have hlt : i < entries.length := (List.getElem?_eq_some_iff.mp h.entry).1
  have hinv := verifyWalks_inv ⟨h.stream⟩ h.entriesOf (entries.take i) 0 _ st
    (fun k x hk => ?_) (.begin h.entriesOf) h.before
  · rwa [length_take, Nat.zero_add, Nat.min_eq_left hlt.le] at hinv
  · rw [Nat.zero_add]
    rw [getElem?_take] at hk
    split at hk
    · exact hk
    · cases hk

/-- a round of the walk has room for all it pushes -/
theorem Walking.room {w : List WorkItem} {log : List (WalkState × WorkItem)}
    (hr : Worklist.Rounds (worklistCap ctx.chunk) (walkItem ctx entries (i + 1) e.sym) st
      [⟨e.addr, .known 0⟩] log st' w) :
    w.length ≤ worklistCap ctx.chunk ∧ ∀ x w' s ys, w = x :: w' →
      walkItem ctx entries (i + 1) e.sym st' x = .ok (s, ys) →
      Worklist.pushAll (worklistCap ctx.chunk) w' ys = ys.reverse ++ w' := by
  have hs : ctx.Scanned := ⟨h.stream⟩
  obtain ⟨hfresh, hfirst⟩ := h.inv.admitted h.entriesOf h.entry
  have hμ := unvisited_le ctx.chunk.count st
  obtain ⟨hinv, hle⟩ := hr.invariant _ _ (WalkInv ctx e.sym (i + 1) st ⟨e.addr, .known 0⟩)
    (fun st => 2 * unvisited ctx.chunk.count st)
    (fun st x w st' ys hinv hv => hinv.visit hfresh hs hv) (.begin hfresh hfirst)
    (by rw [length_singleton, worklistCap]; omega)
  refine ⟨by omega, fun x w' s ys hw hv => Worklist.pushAll_eq _ _ _ ?_⟩
  subst hw
  obtain ⟨hys, _⟩ := hinv.visit hfresh hs hv
  rw [length_cons] at hle
  omega

theorem verifyWalk_rounds : (∀ log st' w, Worklist.Rounds (worklistCap ctx.chunk)
        (walkItem ctx entries (i + 1) e.sym) st [⟨e.addr, .known 0⟩] log st' w →
      (∀ x pc, processed (log ++ [(st', x)]) pc ≤ 2) ∧ w.length ≤ 4 * ctx.chunk.count + 8 ∧
      ∀ x w' s ys, w = x :: w' → walkItem ctx entries (i + 1) e.sym st' x = .ok (s, ys) →
        Worklist.pushAll (worklistCap ctx.chunk) w' ys = ys.reverse ++ w') ∧
    (∃ r, Worklist.run (worklistCap ctx.chunk) (walkItem ctx entries (i + 1) e.sym)
      (worklistCap ctx.chunk) st [⟨e.addr, .known 0⟩] = some r) ∧
    ∀ st', verifyWalk ctx entries (i + 1) e st = .ok st' → ∀ t, Reaches ctx.chunk e.addr t →
      ∃ n : Nat, t = n ∧ st'.visited n ∧ st'.owner n = i + 1 := by
  have hs : ctx.Scanned := ⟨h.stream⟩
  obtain ⟨hfresh, hfirst⟩ := h.inv.admitted h.entriesOf h.entry
  refine ⟨fun log st' w hr => ?_, verifyWalk_run hfresh entries e.sym hs hfirst,
    fun st' hok t ht => ?_⟩
  · exact ⟨Rounds.processed_le hr, h.room hr⟩
  · have hinv := h.inv.walk hs h.entriesOf h.entry hok
    obtain ⟨d, hrun⟩ := ht.runs ctx.procedures ctx.limits.getBuiltinType e.sym
    obtain ⟨n, hn, hseen, hown⟩ := hinv.run i.lt_succ_self h.entry hrun
    exact ⟨n, hn, hseen.visited, hown⟩

end

def branchCtx : VCtx := ⟨branchChunk, noProcedures, smallVm, [0, 1, 6]⟩

theorem verifyWalk_rounds_branch :
    (∀ log st' w, Worklist.Rounds 36 (walkItem branchCtx [⟨0, none⟩] 1 none)
        (initialWalkState [⟨0, none⟩]) [⟨0, .known 0⟩] log st' w →
      (∀ x pc, processed (log ++ [(st', x)]) pc ≤ 2) ∧ w.length ≤ 36 ∧
      ∀ x w' s ys, w = x :: w' → walkItem branchCtx [⟨0, none⟩] 1 none st' x = .ok (s, ys) →
        Worklist.pushAll 36 w' ys = ys.reverse ++ w') ∧
    (∃ r, Worklist.run 36 (walkItem branchCtx [⟨0, none⟩] 1 none) 36
      (initialWalkState [⟨0, none⟩]) [⟨0, .known 0⟩] = some r) ∧
    ∀ st', verifyWalk branchCtx [⟨0, none⟩] 1 ⟨0, none⟩ (initialWalkState [⟨0, none⟩]) =
        .ok st' → ∀ t, Reaches branchChunk 0 t →
      ∃ n : Nat, t = n ∧ st'.visited n ∧ st'.owner n = 1 :=
  @verifyWalk_rounds branchCtx [⟨0, none⟩] (initialWalkState [⟨0, none⟩]) 0 ⟨0, none⟩
    ⟨by decide, rfl, rfl, rfl, rfl, rfl⟩

end Pscal
