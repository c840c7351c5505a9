import Pscal.Compiler.Emit
import Pscal.Compiler.PeepholeCode
import Pscal.Symbol.Table

/-!
# Statements and their code

The part of `compileStatement` (`compiler.c`) that writes jumps.  An operand that is not known yet
is a placeholder, and the compiler keeps its offset until the place is reached.

* `Instruction`, `Expr`, `Stmt`  the syntax: what stands between the jumps is whole instructions;
* `Coder`  the code, the loop stack and the label tables;
* `defineLabel`, `compileGoto`, `addBreakJump`, `addContinueJump`, `patchBreaks`, …
* `validateJumps`  the check at the end of a routine;
* `Stmt.compile`  `compileStatement`; `none` where an error is reported;
* `compileProgram`  a whole program.
-/

namespace Pscal.Statements

/-! ## syntax -/

structure Instruction where
  bytes : List UInt8
  whole : WholeInstruction bytes

/-- code that leaves a value, or has an effect, and has no statement in it -/
inductive Expr where
  | code (instructions : List Instruction)
  | seq (e f : Expr)
  | andThen (a b : Expr)
  | orElse (a b : Expr)
  | ternary (condition a b : Expr)

/-- the parts of a `for` statement around its body -/
structure ForLoop where
  down : Bool
  start : Expr
  /-- `compileLoopControlStore` -/
  store : Expr
  /-- `compileRValue` of the control variable -/
  var : Expr
  entryBound : Expr
  stepBound : Expr
  one : Expr
  /-- what `emitForLoopTypeLimit` pushes, where it knows the range -/
  limit : Option Expr

inductive CaseLabel where
  | value (e : Expr)
  | range (lower upper : Expr)

mutual

inductive Stmt where
  | code (e : Expr)
  | nothing
  | seq (s t : Stmt)
  | ifThen (condition : Expr) (s : Stmt)
  | ifElse (condition : Expr) (s t : Stmt)
  | whileDo (condition : Expr) (body : Stmt)
  | repeatUntil (body : Stmt) (condition : Expr)
  | forTo (loop : ForLoop) (body : Stmt)
  | caseOf (selector : Expr) (branches : Branches) (otherwise : Stmt)
  | label (name : String) (s : Stmt)
  | goto (name : String)
  | breakLoop
  | continueLoop
  /-- A routine compiled at this place.  `declared`: by its declaration, otherwise because a call
  needs its address. -/
  | routine (declared : Bool) (labels : List String) (entry : Expr) (body : Stmt) (exit : Expr)

/-- the branches of a `case` -/
inductive Branches where
  | done
  | branch (labels : List CaseLabel) (body : Stmt) (rest : Branches)

end

/-! ## the state of the compiler -/

def maxLoopDepth : Nat := 16

structure Loop where
  breakJumps : List Nat := []
  continueJumps : List Nat := []
  continueTarget : Option Nat := none

structure LabelInfo where
  name : String
  /-- `none`: not defined yet -/
  bytecodeOffset : Option Nat := none
  patches : List Nat := []

structure Coder where
  code : List UInt8
  /-- `loop_stack`, the innermost loop first -/
  loops : List Loop := []
  /-- the label tables, that of the current routine first -/
  labels : List (List LabelInfo) := []
  /-- `current_function_compiler != NULL` -/
  inRoutine : Bool := false
  /-- the operands that were patched, in order; no code reads it -/
  patched : List Nat := []

namespace Coder

def count (st : Coder) : Nat := st.code.length

/-- `writeBytecodeChunk`, byte by byte; `count` is an `int` -/
def write (bytes : List UInt8) (st : Coder) : Option Coder :=
  if st.count + bytes.length < 2 ^ 31 then some { st with code := st.code ++ bytes } else none

/-- `emitInt32(chunk, 0xFFFFFFFF, line)` -/
def placeholder : List UInt8 := [0xFF, 0xFF, 0xFF, 0xFF]

/-- a jump to a place that is not known; also the offset of its operand -/
def emitJump (op : OpCode) (st : Coder) : Option (Nat × Coder) :=
  (st.write (op.byte :: placeholder)).map fun st' => (st.count + 1, st')

def emitJumpTo (op : OpCode) (target : Nat) (st : Coder) : Option Coder :=
  st.write (op.byte :: int32Bytes ((target : Int) - ((st.count + 5 : Nat) : Int)))

/-- `patchInt32` with the distance to `target` -/
def patchTo (st : Coder) (operand target : Nat) : Coder :=
  if operand + 3 < st.count then
    { st with
      code := patchInt32 st.code operand ((target : Int) - ((operand + 4 : Nat) : Int))
      patched := st.patched ++ [operand] }
  else st

def emitJumpIf (b : Bool) (op : OpCode) (st : Coder) : Option (Nat × Coder) :=
  if b then st.emitJump op else some (0, st)

def patchIf (b : Bool) (operand : Nat) (st : Coder) : Coder :=
  if b then st.patchTo operand st.count else st

def patchAll (operands : List Nat) (target : Nat) (st : Coder) : Coder :=
  operands.foldl (fun st operand => st.patchTo operand target) st

/-! ## loops -/

def startLoop (st : Coder) : Option Coder :=
  if st.loops.length < maxLoopDepth then some { st with loops := {} :: st.loops } else none

/-- `loop_stack[loop_depth]` -/
def modifyLoop (f : Loop → Loop) (st : Coder) : Coder :=
  match st.loops with
  | [] => st
  | loop :: loops => { st with loops := f loop :: loops }

def setContinueTarget (target : Nat) : Coder → Coder :=
  modifyLoop fun loop => { loop with continueTarget := some target }

def addBreakJump (st : Coder) : Option Coder :=
  if st.loops = [] then none
  else do
    let (operand, st) ← st.emitJump .jump
    return st.modifyLoop fun loop => { loop with breakJumps := loop.breakJumps ++ [operand] }

def addContinueJump (st : Coder) : Option Coder :=
  match st.loops with
  | [] => none
  | loop :: _ =>
    match loop.continueTarget with
    | some target => st.emitJumpTo .jump target
    | none => do
      let (operand, st) ← st.emitJump .jump
      return st.modifyLoop fun loop =>
        { loop with continueJumps := loop.continueJumps ++ [operand] }

def patchBreaks (st : Coder) : Coder :=
  match st.loops with
  | [] => st
  | loop :: _ =>
    (st.patchAll loop.breakJumps st.count).modifyLoop fun loop => { loop with breakJumps := [] }

def patchContinuesTo (target : Nat) (st : Coder) : Coder :=
  match st.loops with
  | [] => st
  | loop :: _ =>
    (st.patchAll loop.continueJumps target).modifyLoop fun loop =>
      { loop with continueJumps := [] }

def endLoop (st : Coder) : Coder := { st with loops := st.loops.tail }

/-! ## labels -/

def findLabelInfo (name : String) (table : List LabelInfo) : Option LabelInfo :=
  table.find? fun info => strcasecmpEq info.name name

/-- the fields of the label `name`; the names of a table differ -/
def modifyLabel (name : String) (f : LabelInfo → LabelInfo) (st : Coder) : Coder :=
  match st.labels with
  | [] => st
  | table :: tables =>
    { st with labels := (table.map fun info =>
        if strcasecmpEq info.name name = true then f info else info) :: tables }

/-- `declareLabel`, for the labels of a routine one after the other -/
def declareLabels (table : List LabelInfo) : List String → Option (List LabelInfo)
  | [] => some table
  | name :: names =>
    match findLabelInfo name table with
    | some _ => none
    | none => declareLabels (table ++ [{ name := name }]) names

/-- `initLabelTable` and `registerLabelDeclarations` -/
def initLabelTable (names : List String) (st : Coder) : Option Coder :=
  (declareLabels [] names).map fun table => { st with labels := table :: st.labels }

def finalizeLabelTable (st : Coder) : Option Coder :=
  match st.labels with
  | [] => none
  | table :: tables =>
    if ∀ info ∈ table, info.bytecodeOffset ≠ none then some { st with labels := tables } else none

def defineLabel (name : String) (st : Coder) : Option Coder := do
  let info ← findLabelInfo name (st.labels.headD [])
  match info.bytecodeOffset with
  | some _ => none
  | none =>
    return (st.patchAll info.patches st.count).modifyLabel name fun info =>
      { info with bytecodeOffset := some st.count, patches := [] }

def compileGoto (name : String) (st : Coder) : Option Coder := do
  let info ← findLabelInfo name (st.labels.headD [])
  let (operand, st) ← st.emitJump .jump
  match info.bytecodeOffset with
  | some target => return st.patchTo operand target
  | none => return st.modifyLabel name fun info => { info with patches := info.patches ++ [operand] }

/-! ## the check of a routine -/

/-- the instructions of the routine, up to `stop`; `none`: the last one goes beyond it -/
def scanInstructions (code : List UInt8) (stop : Nat) : Nat → Nat → Option (List Nat)
  | 0, _ => some []
  | room + 1, pos =>
    if pos < stop then
      if stop < pos + getInstructionLength { code := code } pos then none
      else
        (scanInstructions code stop room (pos + getInstructionLength { code := code } pos)).map
          (pos :: ·)
    else some []

/-- every jump of the code from `start` to `stop` leads to an instruction of it, or to its end -/
def validateJumps (code : List UInt8) (start stop : Nat) : Bool :=
  match scanInstructions code stop (stop - start) start with
  | none => false
  | some offsets =>
    offsets.all fun pos =>
      let chunk : BytecodeChunk := { code := code }
      if chunk.opcode? pos = some .jump ∨ chunk.opcode? pos = some .jumpIfFalse then
        let dest := (pos : Int) + 5 + chunk.i32 (pos + 1)
        decide (dest = stop ∨ ∃ offset ∈ offsets, dest = (offset : Int))
      else true

end Coder

/-! ## compiling -/

open Coder

def Expr.compile : Expr → Coder → Option Coder
  | .code instructions, st => instructions.foldlM (fun st i => st.write i.bytes) st
  | .seq e f, st => do
    let st ← e.compile st
    f.compile st
  | .andThen a b, st => do
    let st ← a.compile st
    let (jumpIfFalse, st) ← st.emitJump .jumpIfFalse
    let st ← b.compile st
    let st ← st.write [OpCode.toBool.byte]
    let (jumpOverFalseCase, st) ← st.emitJump .jump
    let st := st.patchTo jumpIfFalse st.count
    let st ← st.write [OpCode.constFalse.byte]
    return st.patchTo jumpOverFalseCase st.count
  | .orElse a b, st => do
    let st ← a.compile st
    let (jumpIfFalse, st) ← st.emitJump .jumpIfFalse
    let st ← st.write [OpCode.constTrue.byte]
    let (jumpToEnd, st) ← st.emitJump .jump
    let st := st.patchTo jumpIfFalse st.count
    let st ← b.compile st
    let st ← st.write [OpCode.toBool.byte]
    return st.patchTo jumpToEnd st.count
  | .ternary condition a b, st => do
    let st ← condition.compile st
    let (jumpToElse, st) ← st.emitJump .jumpIfFalse
    let st ← a.compile st
    let (jumpToEnd, st) ← st.emitJump .jump
    let st := st.patchTo jumpToElse st.count
    let st ← b.compile st
    return st.patchTo jumpToEnd st.count

/-- the test of a `case` label: the selector stays on the stack, the result is above it -/
def CaseLabel.compile : CaseLabel → Coder → Option Coder
  | .value e, st => do
    let st ← st.write [OpCode.dup.byte]
    let st ← e.compile st
    st.write [OpCode.equal.byte]
  | .range lower upper, st => do
    let st ← st.write [OpCode.dup.byte]
    let st ← st.write [OpCode.dup.byte]
    let st ← lower.compile st
    let st ← st.write [OpCode.greaterEqual.byte]
    let st ← st.write [OpCode.swap.byte]
    let st ← upper.compile st
    let st ← st.write [OpCode.lessEqual.byte]
    st.write [OpCode.and.byte]

/-- a `case` between two branches -/
structure CaseCoder where
  coder : Coder
  endJumps : List Nat := []
  /-- `fallthrough_jump` -/
  fallthrough : Option Nat := none

namespace CaseCoder

def patchFallthrough (cs : CaseCoder) : CaseCoder :=
  match cs.fallthrough with
  | none => cs
  | some operand =>
    { cs with coder := cs.coder.patchTo operand cs.coder.count, fallthrough := none }

/-- the jump from the end of a body to the end of the `case` -/
def emitEndJump (cs : CaseCoder) : Option CaseCoder :=
  (cs.coder.emitJump .jump).map fun (operand, st) =>
    { cs with coder := st, endJumps := cs.endJumps ++ [operand] }

end CaseCoder

/-- the labels of a branch that shares its body; also the jumps to the body and `fallthrough_jump` -/
def compileSharedLabels :
    List CaseLabel → Coder → List Nat → Option Nat → Option (Coder × List Nat × Option Nat)
  | [], st, matchJumps, fallthrough => some (st, matchJumps, fallthrough)
  | label :: labels, st, matchJumps, _ => do
    let st ← label.compile st
    let (falseJump, st) ← st.emitJump .jumpIfFalse
    let st ← st.write [OpCode.pop.byte]
    let (matchJump, st) ← st.emitJump .jump
    let st := st.patchTo falseJump st.count
    compileSharedLabels labels st (matchJumps ++ [matchJump]) (some falseJump)

namespace ForLoop

def entryTest (loop : ForLoop) : OpCode := if loop.down then .greaterEqual else .lessEqual

def stepTest (loop : ForLoop) : OpCode := if loop.down then .greater else .less

def compileStep (loop : ForLoop) (st : Coder) : Option Coder := do
  let st ← loop.var.compile st
  let st ← loop.one.compile st
  let st ← st.write [if loop.down then OpCode.subtract.byte else OpCode.add.byte]
  loop.store.compile st

/-- where the range of the variable is known, it is not stepped out of it -/
def compileLastStep (loop : ForLoop) (st : Coder) : Option Coder :=
  match loop.limit with
  | none => loop.compileStep st
  | some limit => do
    let st ← loop.var.compile st
    let st ← limit.compile st
    let st ← st.write [loop.stepTest.byte]
    let (limitSkipJump, st) ← st.emitJump .jumpIfFalse
    let st ← loop.compileStep st
    return st.patchTo limitSkipJump st.count

end ForLoop

mutual

def Stmt.compile : Stmt → Coder → Option Coder
  | .code e, st => e.compile st
  | .nothing, st => some st
  | .seq s t, st => do
    let st ← s.compile st
    t.compile st
  | .ifThen condition s, st => do
    let st ← condition.compile st
    let (jumpToEnd, st) ← st.emitJump .jumpIfFalse
    let st ← s.compile st
    return st.patchTo jumpToEnd st.count
  | .ifElse condition s t, st => do
    let st ← condition.compile st
    let (jumpToElse, st) ← st.emitJump .jumpIfFalse
    let st ← s.compile st
    let (jumpOverElse, st) ← st.emitJump .jump
    let st := st.patchTo jumpToElse st.count
    let st ← t.compile st
    return st.patchTo jumpOverElse st.count
  | .whileDo condition body, st => do
    let loopStart := st.count
    let st ← st.startLoop
    let st := st.setContinueTarget loopStart
    let st ← condition.compile st
    let (exitJump, st) ← st.emitJump .jumpIfFalse
    let st ← body.compile st
    let st := st.patchContinuesTo loopStart
    let st ← st.emitJumpTo .jump loopStart
    let st := st.patchTo exitJump st.count
    return st.patchBreaks.endLoop
  | .repeatUntil body condition, st => do
    let loopStart := st.count
    let st ← st.startLoop
    let st ← body.compile st
    let st := st.patchContinuesTo st.count
    let st ← condition.compile st
    let st ← st.emitJumpTo .jumpIfFalse loopStart
    return st.patchBreaks.endLoop
  | .forTo loop body, st => do
    let st ← loop.start.compile st
    let st ← loop.store.compile st
    let st ← st.startLoop
    let st ← loop.var.compile st
    let st ← loop.entryBound.compile st
    let st ← st.write [loop.entryTest.byte]
    let (entryExitJump, st) ← st.emitJump .jumpIfFalse
    let bodyStart := st.count
    let st ← body.compile st
    let st := st.setContinueTarget st.count
    let st := st.patchContinuesTo st.count
    let st ← loop.var.compile st
    let st ← loop.stepBound.compile st
    let st ← st.write [loop.stepTest.byte]
    let (stepExitJump, st) ← st.emitJump .jumpIfFalse
    let st ← loop.compileStep st
    let st ← st.emitJumpTo .jump bodyStart
    let st := st.patchTo stepExitJump st.count
    let st ← loop.compileLastStep st
    let st := st.patchTo entryExitJump st.count
    return st.patchBreaks.endLoop
  | .caseOf selector branches otherwise, st => do
    let st ← selector.compile st
    let cs ← branches.compile { coder := st }
    let cs := cs.patchFallthrough
    let st ← cs.coder.write [OpCode.pop.byte]
    let st ← otherwise.compile st
    return st.patchAll cs.endJumps st.count
  | .label name s, st => do
    let st ← st.defineLabel name
    s.compile st
  | .goto name, st => st.compileGoto name
  | .breakLoop, st => st.addBreakJump
  | .continueLoop, st => st.addContinueJump
  | .routine declared labels entry body exit, st => do
    let nested := st.inRoutine
    -- the jump of the declaration or of the call, over the routine
    let (skip, st) ← st.emitJumpIf (declared || !nested) .jump
    -- `compileDefinedFunction`, which has a jump of its own inside another routine
    let (jumpOverBody, st) ← st.emitJumpIf nested .jump
    let start := st.count
    let st ← entry.compile { st with inRoutine := true }
    let st ← st.initLabelTable labels
    let st ← body.compile st
    let st ← st.finalizeLabelTable
    if validateJumps st.code start st.count then
      let st ← exit.compile st
      let st := st.patchIf nested jumpOverBody
      let st := st.patchIf (declared || !nested) skip
      return { st with inRoutine := nested }
    else none

def Branches.compile : Branches → CaseCoder → Option CaseCoder
  | .done, cs => some cs
  | .branch [] _ rest, cs => rest.compile cs.patchFallthrough
  | .branch [label] body rest, cs => do
    let cs := cs.patchFallthrough
    let st ← label.compile cs.coder
    let (falseJump, st) ← st.emitJump .jumpIfFalse
    let st ← st.write [OpCode.pop.byte]
    let st ← body.compile st
    let cs ← { cs with coder := st }.emitEndJump
    let st := cs.coder.patchTo falseJump cs.coder.count
    rest.compile { cs with coder := st, fallthrough := some falseJump }
  | .branch (label :: label' :: labels) body rest, cs => do
    let cs := cs.patchFallthrough
    let (st, matchJumps, fallthrough) ←
      compileSharedLabels (label :: label' :: labels) cs.coder [] none
    let st := st.patchAll matchJumps st.count
    let st ← body.compile st
    let cs ← { cs with coder := st, fallthrough := fallthrough }.emitEndJump
    rest.compile cs

end

/-- `compileASTToBytecode`: the labels of the main block, the program, and its last instruction -/
def compileProgram (labels : List String) (s : Stmt) (st : Coder) : Option Coder := do
  let st ← st.initLabelTable labels
  let st ← s.compile st
  let st ← st.finalizeLabelTable
  st.write [OpCode.halt.byte]

end Pscal.Statements
