import Mathlib
import Pscal.Bytecode.Chunk
import Pscal.VM.Comparisons

/-!
# The instructions that move values and jump

The part of the loop of `interpretBytecode` (`vm/vm.c`) that `case` and `for` statements are made of.

* `Machine`  the program counter, the operand stack (its top first) and everything else;
* `StackVM`  the code, the limit of the stack, and the other instructions, which stay open;
* `StackVM.step`, `StackVM.Runs`.
-/

namespace Pscal

structure Machine (M : Type) where
  pc : Nat
  stack : List Value
  rest : M

structure StackVM (M : Type) where
  code : List UInt8
  limit : Nat
  ext : Externals
  /-- an instruction that is not one of those below (`none`: a runtime error, or the end) -/
  other : OpCode → Machine M → Option (Machine M)

def OpCode.isComparison : OpCode → Bool
  | .equal | .notEqual | .greater | .greaterEqual | .less | .lessEqual => true
  | _ => false

/-- the instructions of `StackVM.step` -/
def OpCode.isGlue : OpCode → Bool
  | .dup | .swap | .pop | .and | .jump | .jumpIfFalse => true
  | o => o.isComparison

namespace StackVM

variable {M : Type} (vm : StackVM M)

def chunk : BytecodeChunk := { code := vm.code }

def push (v : Value) (σ : Machine M) : Option (Machine M) :=
  if σ.stack.length < vm.limit then some { σ with stack := v :: σ.stack } else none

/-- where the jump at `pc` leads -/
def destination (pc : Nat) : Nat := ((pc : Int) + 5 + vm.chunk.i32 (pc + 1)).toNat

def step (σ : Machine M) : Option (Machine M) :=
  match vm.chunk.opcode? σ.pc with
  | none => none
  | some .dup =>
    match σ.stack with
    | [] => none
    | v :: _ => vm.push v { σ with pc := σ.pc + 1 }
  | some .swap =>
    match σ.stack with
    | a :: b :: stack => some { σ with pc := σ.pc + 1, stack := b :: a :: stack }
    | _ => none
  | some .pop =>
    match σ.stack with
    | [] => none
    | _ :: stack => some { σ with pc := σ.pc + 1, stack := stack }
  | some .and =>
    match σ.stack with
    | b :: a :: stack =>
      (vmAnd a b).map fun v => { σ with pc := σ.pc + 1, stack := v :: stack }
    | _ => none
  | some .jump => some { σ with pc := vm.destination σ.pc }
  | some .jumpIfFalse =>
    match σ.stack with
    | [] => none
    | v :: stack =>
      (vmCondition vm.ext v).map fun truth =>
        { σ with pc := if truth then σ.pc + 5 else vm.destination σ.pc, stack := stack }
  | some o =>
    if o.isComparison = true then
      match σ.stack with
      | b :: a :: stack =>
        (vmCompare vm.ext o a b).map fun r =>
          { σ with pc := σ.pc + 1, stack := makeBoolean r :: stack }
      | _ => none
    else vm.other o σ

def Runs : Machine M → Machine M → Prop := Relation.ReflTransGen fun σ σ' => vm.step σ = some σ'

variable {vm} {pc : Nat} {stack : List Value} {r : M}

theorem step_dup {v : Value} (h : vm.chunk.opcode? pc = some .dup)
    (hroom : stack.length + 1 < vm.limit) :
    vm.step ⟨pc, v :: stack, r⟩ = some ⟨pc + 1, v :: v :: stack, r⟩ := by
  unfold step push
  rw [h]
  exact if_pos hroom

theorem step_swap {a b : Value} (h : vm.chunk.opcode? pc = some .swap) :
    vm.step ⟨pc, a :: b :: stack, r⟩ = some ⟨pc + 1, b :: a :: stack, r⟩ := by
  unfold step
  rw [h]

theorem step_pop {v : Value} (h : vm.chunk.opcode? pc = some .pop) :
    vm.step ⟨pc, v :: stack, r⟩ = some ⟨pc + 1, stack, r⟩ := by
  unfold step
  rw [h]

theorem step_and {a b : Bool} (h : vm.chunk.opcode? pc = some .and) :
    vm.step ⟨pc, makeBoolean b :: makeBoolean a :: stack, r⟩ =
      some ⟨pc + 1, makeBoolean (a && b) :: stack, r⟩ := by
  unfold step
  rw [h]
  dsimp only
  rw [vmAnd_makeBoolean]
  rfl

theorem step_jump (h : vm.chunk.opcode? pc = some .jump) :
    vm.step ⟨pc, stack, r⟩ = some ⟨vm.destination pc, stack, r⟩ := by
  unfold step
  rw [h]

theorem step_jumpIfFalse {b : Bool} (h : vm.chunk.opcode? pc = some .jumpIfFalse) :
    vm.step ⟨pc, makeBoolean b :: stack, r⟩ =
      some ⟨if b then pc + 5 else vm.destination pc, stack, r⟩ := by
  unfold step
  rw [h]
  dsimp only
  rw [vmCondition_makeBoolean]
  rfl

theorem step_compare {o : OpCode} {a b : Value} {res : Bool} (ho : o.isComparison = true)
    (h : vm.chunk.opcode? pc = some o) (hcompare : vmCompare vm.ext o a b = some res) :
    vm.step ⟨pc, b :: a :: stack, r⟩ = some ⟨pc + 1, makeBoolean res :: stack, r⟩ := by
  unfold step
  rw [h]
  cases o <;> first | (cases ho; done) | (dsimp only; rw [if_pos ho, hcompare]; rfl)

end StackVM

end Pscal
