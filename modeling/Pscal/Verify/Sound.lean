import Pscal.Verify.Entries

/-!
# What the verifier guarantees

* `pscalVerifyBytecodeChunk_sound`  runs of an accepted chunk stay on whole instructions, inside the
  tables and inside the depth bounds;
* `pscalVerifyBytecodeChunk_partition`  the starts of an accepted chunk share no instruction.
-/

namespace Pscal

open BytecodeChunk List

/-- Two starts at one address are one entry for the verifier.  The kinds agree when no named
routine at the address is a procedure while `sym` is a function. -/
def KindAgreed (chunk : BytecodeChunk) (procs : Procedures) (a : Nat)
    (sym : Option SymbolRef) : Prop :=
  isFunction procs.heap sym = true → ∀ sym', Start chunk procs a sym' → sym'.isSome = true →
    isFunction procs.heap sym' = true

/-- what holds when the machine of the routine `sym`, started at `a`, is about to run the
instruction at `pc` -/
structure SafeAt (chunk : BytecodeChunk) (procs : Procedures) (limits : VmLimits) (a : Nat)
    (sym : Option SymbolRef) (pc : Nat) (d : Depth) : Prop where
  start : InstrStart chunk pc
  whole : WholeAt chunk pc
  tables : ∀ r ∈ tableRefs chunk pc, r.InTable chunk hostFnCount
  flow : ∀ t, Flow chunk pc t → ∃ n : Nat, t = n ∧ InstrStart chunk n
  ceiling : ∀ v, d = .known v → v ≤ limits.stackCeiling
  pops : ∀ op v, chunk.opcode? pc = some op → d = .known v →
    (op = .returnOp ∨ op = .exit → KindAgreed chunk procs a sym) →
    ((stackUse chunk procs limits.getBuiltinType sym pc op).pops : Int) ≤ v

theorem stackUse_pops_le (chunk : BytecodeChunk) {procs : Procedures}
    (builtin : String → BuiltinRoutineType) {sym sym' : Option SymbolRef} (pc : Nat) {op : OpCode}
    (h : op = .returnOp ∨ op = .exit →
      isFunction procs.heap sym = true → isFunction procs.heap sym' = true) :
    (stackUse chunk procs builtin sym pc op).pops ≤
      (stackUse chunk procs builtin sym' pc op).pops := by
  have hresult : op = .returnOp ∨ op = .exit →
      resultCount procs sym ≤ resultCount procs sym' := by
    intro hop
    unfold resultCount
    by_cases hf : isFunction procs.heap sym = true
    · rw [if_pos hf, if_pos (h hop hf)]
    · rw [if_neg hf]
      exact Nat.zero_le _
  by_cases hterm : op.isTerminal = true
  · unfold OpCode.isTerminal at hterm
    split at hterm
    · exact hresult (.inl rfl)
    · exact hresult (.inr rfl)
    · exact le_refl _
    · cases hterm
  · rw [stackUse_routine sym sym' pc (by simpa using hterm)]

theorem pscalVerifyBytecodeChunk_sound {chunk : BytecodeChunk} {procs : Procedures}
    {limits : VmLimits} (hne : 0 < chunk.count)
    (hok : pscalVerifyBytecodeChunk chunk procs limits = .ok ()) {a : Nat}
    {sym : Option SymbolRef} (hstart : Start chunk procs a sym) {c : Config}
    (hrun : Runs chunk procs limits.getBuiltinType sym ⟨a, .known 0⟩ c) :
    ∃ pc : Nat, c.pc = pc ∧ SafeAt chunk procs limits a sym pc c.depth := by
  obtain ⟨starts, entries, st, hs, hops, hentries, hinv⟩ := pscalVerifyBytecodeChunk_walks hne hok
  obtain ⟨e, hmem, rfl, hnamed⟩ := hentries.covers a sym hstart
  obtain ⟨k, he⟩ := getElem?_of_mem hmem
  have hk : k < entries.length := (List.getElem?_eq_some_iff.mp he).1
  obtain ⟨pc, hpc, hseen⟩ := hinv.run hk he hrun
  have hsound := hinv.sound k e he hk _ hseen
  refine ⟨pc, hpc, hsound.start, verifyInstructionStream_whole hs.stream hsound.start,
    verifyOperands_ok hs hops hsound.start, hsound.flow, hsound.ceiling, ?_⟩
  intro op v hop hd hkind
  -- the walk ran with the symbol the verifier kept for the address
  have hfun : op = .returnOp ∨ op = .exit →
      isFunction procs.heap sym = true → isFunction procs.heap e.sym = true := by
    intro hret hf
    have hsome : sym.isSome = true := by
      cases sym with
      | none => cases hf
      | some r => rfl
    exact hkind hret hf e.sym (hentries.start e hmem).2 (hnamed hsome)
  have hle := stackUse_pops_le chunk limits.getBuiltinType pc hfun
  have hpops := hsound.pops op v hop hd
  exact le_trans (Int.ofNat_le.mpr hle) hpops

/-- `CONST_1`, a conditional jump whose two arms meet, `HALT` -/
def branchChunk : BytecodeChunk := { code := [4, 28, 0, 0, 0, 0, 89] }

def noProcedures : Procedures := ⟨heapOf [], .nil⟩

def smallVm : VmLimits := ⟨fun _ => .none, 10⟩

theorem branchChunk_run : Runs branchChunk noProcedures smallVm.getBuiltinType none
    ⟨0, .known 0⟩ ⟨6, .known 0⟩ := by
  have hconst : Step branchChunk noProcedures smallVm.getBuiltinType none ⟨0, .known 0⟩
      ⟨1, .known 1⟩ :=
    @Step.mk _ _ _ _ 0 .const1 1 _ (by decide) rfl (.fall rfl rfl (by simp))
  have hjump : Step branchChunk noProcedures smallVm.getBuiltinType none ⟨1, .known 1⟩
      ⟨6, .known 0⟩ :=
    @Step.mk _ _ _ _ 1 .jumpIfFalse 6 _ (by decide) rfl (.fall rfl rfl (by simp))
  exact (Relation.ReflTransGen.single hconst).tail hjump

theorem pscalVerifyBytecodeChunk_sound_branch : ∃ pc : Nat, (6 : Int) = pc ∧
      SafeAt branchChunk noProcedures smallVm 0 none pc (.known 0) :=
  pscalVerifyBytecodeChunk_sound (by decide) rfl .program branchChunk_run

/-- `HALT`, and behind it one `RETURN` that is the body of two routines -/
def sharedChunk : BytecodeChunk := { code := [89, 0] }

/-- a procedure and a function at offset 1 -/
def sharedProcedures : Procedures where
  heap := heapOf [{ noSymbol with name := "p", isDefined := true, bytecodeAddress := 1 },
    { noSymbol with name := "f", type := .int32, isDefined := true, bytecodeAddress := 1 }]
  table := .node 0 .nil (.node 1 .nil .nil)

/-- The empty chunk is accepted, and has no instruction at offset 0; and of two routines at one
address the function returns with no result on the stack, since the walk ran for the
procedure. -/
theorem pscalVerifyBytecodeChunk_accepts :
    (pscalVerifyBytecodeChunk { code := [] } noProcedures smallVm = .ok () ∧
      Start { code := [] } noProcedures 0 none ∧ ¬ InstrStart { code := [] } 0) ∧
    (pscalVerifyBytecodeChunk sharedChunk sharedProcedures smallVm = .ok () ∧
      Start sharedChunk sharedProcedures 1 (some 1) ∧
      sharedChunk.opcode? 1 = some .returnOp ∧
      (stackUse sharedChunk sharedProcedures smallVm.getBuiltinType (some 1) 1 .returnOp).pops
        = 1) := by
  refine ⟨⟨rfl, .program, fun h => absurd h.lt (by decide)⟩, rfl, ?_, rfl, rfl⟩
  exact @Start.procedure sharedChunk sharedProcedures 1 (by decide) rfl rfl (by decide) (by decide)

/-! ## the partition -/

/-- `a` is an entry point of the chunk -/
def IsStart (chunk : BytecodeChunk) (procs : Procedures) (a : Nat) : Prop :=
  ∃ sym, Start chunk procs a sym

theorem IsStart.empty {chunk : BytecodeChunk} {procs : Procedures} {a : Nat}
    (h : IsStart chunk procs a) (hempty : chunk.count = 0) : a = 0 := by
  obtain ⟨sym, h⟩ := h
  cases h with
  | program => rfl
  | procedure _ _ _ haddr hlt => omega
  | thread hpc _ =>
    have := hpc.lt
    omega

theorem pscalVerifyBytecodeChunk_disjoint {chunk : BytecodeChunk} {procs : Procedures}
    {limits : VmLimits} (hok : pscalVerifyBytecodeChunk chunk procs limits = .ok ()) {a b : Nat}
    (ha : IsStart chunk procs a) (hb : IsStart chunk procs b) {x : Int}
    (hax : Reaches chunk a x) (hbx : Reaches chunk b x) : a = b := by
  by_cases hempty : chunk.count = 0
  · rw [ha.empty hempty, hb.empty hempty]
  · obtain ⟨starts, entries, st, hs, hops, hentries, hinv⟩ :=
      pscalVerifyBytecodeChunk_walks (Nat.pos_of_ne_zero hempty) hok
    have howner : ∀ a, IsStart chunk procs a → Reaches chunk a x →
        ∃ k e n, entries[k]? = some e ∧ e.addr = a ∧ x = (n : Nat) ∧ st.owner n = k + 1 := by
      rintro a ⟨sym, hstart⟩ hreach
      obtain ⟨e, hmem, rfl, _⟩ := hentries.covers a sym hstart
      obtain ⟨k, he⟩ := getElem?_of_mem hmem
      obtain ⟨d, hrun⟩ := hreach.runs procs limits.getBuiltinType sym
      obtain ⟨n, hn, hseen⟩ := hinv.run (List.getElem?_eq_some_iff.mp he).1 he hrun
      exact ⟨k, e, n, he, rfl, hn, hseen.2⟩
    obtain ⟨k, e, n, he, rfl, hn, hown⟩ := howner a ha hax
    obtain ⟨k', e', n', he', rfl, hn', hown'⟩ := howner b hb hbx
    cases Int.ofNat.inj (hn.symm.trans hn')
    obtain rfl : k = k' := by omega
    cases he.symm.trans he'
    rfl

theorem pscalVerifyBytecodeChunk_partition {chunk : BytecodeChunk} {procs : Procedures}
    {limits : VmLimits} (hok : pscalVerifyBytecodeChunk chunk procs limits = .ok ()) :
    (∀ a x, IsStart chunk procs a → Reaches chunk a x →
      ∃! b, IsStart chunk procs b ∧ Reaches chunk b x) ∧
    (∀ a b x y, IsStart chunk procs a → IsStart chunk procs b → Reaches chunk a x →
      FlowStep chunk x y → Reaches chunk b y → a = b) ∧
    (∀ a sym x d d', Start chunk procs a sym →
      Runs chunk procs limits.getBuiltinType sym ⟨a, .known 0⟩ ⟨x, .known d⟩ →
      Runs chunk procs limits.getBuiltinType sym ⟨a, .known 0⟩ ⟨x, .known d'⟩ → d = d') := by
  refine ⟨fun a x ha hax => ?_, fun a b x y ha hb hax hxy hby => ?_,
    fun a sym x d d' hstart hd hd' => ?_⟩
  · refine ⟨a, ⟨ha, hax⟩, ?_⟩
    rintro b ⟨hb, hbx⟩
    exact pscalVerifyBytecodeChunk_disjoint hok hb ha hbx hax
  · exact pscalVerifyBytecodeChunk_disjoint hok ha hb (hax.tail hxy) hby
  · by_cases hempty : chunk.count = 0
    · have hsame : ∀ c, Runs chunk procs limits.getBuiltinType sym ⟨a, .known 0⟩ c →
          c = ⟨a, .known 0⟩ := by
        intro c hc
        cases hc.cases_head with
        | inl h => exact h.symm
        | inr h =>
          obtain ⟨_, hstep, _⟩ := h
          cases hstep with
          | mk _ hpc _ _ => omega
      cases (hsame _ hd).trans (hsame _ hd').symm
      rfl
    · obtain ⟨starts, entries, st, hs, hops, hentries, hinv⟩ :=
        pscalVerifyBytecodeChunk_walks (Nat.pos_of_ne_zero hempty) hok
      obtain ⟨e, hmem, rfl, _⟩ := hentries.covers a sym hstart
      obtain ⟨k, he⟩ := getElem?_of_mem hmem
      obtain ⟨n, hn, hseen⟩ := hinv.run (List.getElem?_eq_some_iff.mp he).1 he hd
      obtain ⟨n', hn', hseen'⟩ := hinv.run (List.getElem?_eq_some_iff.mp he).1 he hd'
      cases Int.ofNat.inj (hn.symm.trans hn')
      exact hseen.1.2.symm.trans hseen'.1.2

theorem pscalVerifyBytecodeChunk_partition_branch :
    (∀ a x, IsStart branchChunk noProcedures a → Reaches branchChunk a x →
      ∃! b, IsStart branchChunk noProcedures b ∧ Reaches branchChunk b x) ∧
    (∀ a b x y, IsStart branchChunk noProcedures a → IsStart branchChunk noProcedures b →
      Reaches branchChunk a x → FlowStep branchChunk x y → Reaches branchChunk b y → a = b) ∧
    (∀ a sym x d d', Start branchChunk noProcedures a sym →
      Runs branchChunk noProcedures smallVm.getBuiltinType sym ⟨a, .known 0⟩ ⟨x, .known d⟩ →
      Runs branchChunk noProcedures smallVm.getBuiltinType sym ⟨a, .known 0⟩ ⟨x, .known d'⟩ →
      d = d') :=
  pscalVerifyBytecodeChunk_partition rfl

end Pscal
