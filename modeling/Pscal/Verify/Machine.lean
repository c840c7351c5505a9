import Pscal.Bytecode.Stream
import Pscal.Verify.Check

/-!
# The abstract machine

What the verifier is sound for: a machine that knows the offset of its instruction and, as long
as it only met instructions with a known stack effect, the depth of its operand stack.

* `stackUse`  how many operands an instruction takes, and how many it leaves;
* `Step`  one instruction, to any successor the instruction set allows;
* `Start`  where a run begins: the program, a routine, or a new thread.
-/

namespace Pscal

open BytecodeChunk

/-- operands taken and operands left; `none`: it cannot be told how many are left -/
structure StackUse where
  pops : Nat
  pushes : Option Nat
deriving DecidableEq, Repr

/-- the dimensions of an array payload whose bounds are on the stack -/
def runtimeDims (chunk : BytecodeChunk) : Nat → Nat → Nat
  | 0, _ => 0
  | dims + 1, cursor =>
    (if chunk.u16 cursor = 0xFFFF ∧ chunk.u16 (cursor + 2) = 0xFFFF then 1 else 0) +
      runtimeDims chunk dims (cursor + 4)

/-- the values a routine hands back: one for a function, none for a procedure or the program -/
def resultCount (procs : Procedures) (sym : Option SymbolRef) : Nat :=
  if isFunction procs.heap sym then 1 else 0

/-- The stack effect of the instruction at `pc`, run in a frame of the routine `sym`. -/
def stackUse (chunk : BytecodeChunk) (procs : Procedures)
    (builtin : String → BuiltinRoutineType) (sym : Option SymbolRef) (pc : Nat) (op : OpCode) :
    StackUse :=
  let lastByte := chunk.u8 (pc + getInstructionLength chunk pc - 1)
  match op with
  | .returnOp | .exit => ⟨resultCount procs sym, some (resultCount procs sym)⟩
  | .getElementAddress | .loadElementValue => ⟨1 + chunk.u8 (pc + 1), some 1⟩
  | .initLocalArray => ⟨runtimeDims chunk (chunk.u8 (pc + 2)) (pc + 3), some 0⟩
  | .initFieldArray => ⟨1 + runtimeDims chunk (chunk.u8 (pc + 2)) (pc + 3), some 1⟩
  | .callBuiltinProc => ⟨lastByte, some 0⟩
  | .callBuiltin =>
    let pushed := match constString chunk (chunk.u16 (pc + 1)) with
      | some name => if builtin name = .procedure then 0 else 1
      | none => 1
    ⟨lastByte, some pushed⟩
  | .callUserProc | .call =>
    match calleeOf chunk procs pc op with
    | some r => ⟨lastByte, some (resultCount procs (some r))⟩
    | none => ⟨lastByte, none⟩
  -- the callee is only known at run time
  | .callIndirect => ⟨chunk.u8 (pc + 1) + 1, none⟩
  | .callMethod => ⟨chunk.u8 (pc + 2) + 1, none⟩
  | .procCallIndirect => ⟨chunk.u8 (pc + 1) + 1, some 0⟩
  | .callHost => ⟨0, none⟩
  | op => ⟨op.info.stackIn.toNat, some op.info.stackOut.toNat⟩

def Depth.after : Depth → StackUse → Depth
  | .known d, ⟨pops, some pushes⟩ => .known (d - pops + pushes)
  | .known _, ⟨_, none⟩ => .unknown
  | .unknown, _ => .unknown

/-- the program counter may hold any offset, valid or not -/
structure Config where
  pc : Int
  depth : Depth
deriving DecidableEq, Repr

section
variable (chunk : BytecodeChunk) (procs : Procedures) (builtin : String → BuiltinRoutineType)
  (sym : Option SymbolRef)

inductive Step : Config → Config → Prop where
  | mk {pc : Nat} {op : OpCode} {t : Int} (d : Depth) (hpc : pc < chunk.count)
      (hop : chunk.opcode? pc = some op) (hflow : Flow chunk pc t) :
      Step ⟨pc, d⟩ ⟨t, d.after (stackUse chunk procs builtin sym pc op)⟩

/-- runs of the routine `sym` -/
def Runs : Config → Config → Prop := Relation.ReflTransGen (Step chunk procs builtin sym)

/-- Where runs begin, with the routine that runs: offset 0, the address of a defined procedure
that is no alias, and the target of a `THREAD_CREATE`. -/
inductive Start : Nat → Option SymbolRef → Prop where
  | program : Start 0 none
  | procedure {r : SymbolRef} (hmem : r ∈ procs.table.refs) (halias : (procs.heap r).isAlias = false)
      (hdef : (procs.heap r).isDefined = true) (haddr : 0 ≤ (procs.heap r).bytecodeAddress)
      (hlt : (procs.heap r).bytecodeAddress < chunk.count) :
      Start (procs.heap r).bytecodeAddress.toNat (some r)
  | thread {pc : Nat} (hpc : InstrStart chunk pc) (hop : chunk.opcode? pc = some .threadCreate) :
      Start (chunk.u32 (pc + 1)) (findProcByAddress procs.heap procs.table (chunk.u32 (pc + 1)))

end

section
variable {chunk : BytecodeChunk} {procs : Procedures} {builtin : String → BuiltinRoutineType}
  {sym sym' : Option SymbolRef}

theorem Step.inv {pc : Nat} {d : Depth} {c : Config} (h : Step chunk procs builtin sym ⟨pc, d⟩ c) :
    ∃ op, chunk.opcode? pc = some op ∧ Flow chunk pc c.pc ∧
      c.depth = d.after (stackUse chunk procs builtin sym pc op) := by
  generalize hc : Config.mk (pc : Int) d = c₀ at h
  cases h with
  | mk d' hpc hop hflow =>
    obtain ⟨hpc', rfl⟩ := Config.mk.inj hc
    cases Int.ofNat.inj hpc'
    exact ⟨_, hop, hflow, rfl⟩

theorem Flow.opcode {pc : Nat} {t : Int} (h : Flow chunk pc t) :
    ∃ op, chunk.opcode? pc = some op ∧ op.isTerminal = false := by
  cases h with
  | fall hop hterm => exact ⟨_, hop, hterm⟩
  | jump hop hjump =>
    refine ⟨_, hop, ?_⟩
    rcases hjump with rfl | rfl <;> rfl

theorem stackUse_routine (sym sym' : Option SymbolRef) (pc : Nat) {op : OpCode}
    (hterm : op.isTerminal = false) :
    stackUse chunk procs builtin sym pc op = stackUse chunk procs builtin sym' pc op := by
  unfold stackUse
  dsimp only
  split <;> first | rfl | (exact absurd hterm (by simp [OpCode.isTerminal]))

theorem Step.routine {c c' : Config} (h : Step chunk procs builtin sym c c') :
    Step chunk procs builtin sym' c c' := by
  cases h with
  | mk d hpc hop hflow =>
    obtain ⟨op', hop', hterm⟩ := hflow.opcode
    cases hop.symm.trans hop'
    rw [stackUse_routine sym sym' _ hterm]
    exact Step.mk d hpc hop hflow

end

theorem Reaches.runs {chunk : BytecodeChunk} {a : Nat} {x : Int} (h : Reaches chunk a x)
    (procs : Procedures) (builtin : String → BuiltinRoutineType) (sym : Option SymbolRef) :
    ∃ d, Runs chunk procs builtin sym ⟨a, .known 0⟩ ⟨x, d⟩ := by
  induction h with
  | refl => exact ⟨_, Relation.ReflTransGen.refl⟩
  | tail _ hstep ih =>
    obtain ⟨d, hd⟩ := ih
    obtain ⟨pc, rfl, hlt, hflow⟩ := hstep
    obtain ⟨op, hop, _⟩ := hflow.opcode
    exact ⟨_, hd.tail (Step.mk d hlt hop hflow)⟩

end Pscal
